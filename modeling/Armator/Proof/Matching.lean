import Armator.Proof.Automaton

/-!
# One match of the scanner

The loops that run the automaton over the buffer, and what they leave to back up to: a token at
the front of the text, or the place of a NUL, which may be the end of the buffer.
-/

namespace Armator.Sim

open Lib

/-! ## Back-up -/

/-- The last state that accepts, behind the state `t` at `cp`. -/
def Stage.noted (t : Stage) (cp : Nat) (last : Accepting) : Accepting :=
  if t.rule = none then last else ⟨t.state, cp⟩

/-- Where no rule matches the text, the `$` at its start is what to fall back to. -/
def Stage.Recorded (t : Stage) (textPtr : Nat) (last : Accepting) : Prop :=
  t.rule = none → t ≠ .start → last = ⟨Stage.dollar.state, textPtr + 1⟩

/-- At `yy_find_action`: the rule and the end of the text it matches. -/
def Picks (last : Accepting) (cp state : Nat) (r : Rule) (stop : Nat) : Prop :=
  ∃ act, backUp last cp state = .ok (stop, act) ∧ yyRule act = some r

section Back

variable {t t' : Stage} {u : List (BitVec 8)} {last : Accepting} {cp k textPtr : Nat} {r : Rule}

theorem visit_stage (t : Stage) (last : Accepting) (cp : Nat) :
    last.visit t.state cp = .ok (t.noted cp last) := by
  obtain ⟨act, hload, -, hzero, -⟩ := yyAccept_state t
  unfold Accepting.visit Stage.noted
  rw [hload, ok_bind]
  by_cases hr : t.rule = none
  · rw [if_pos hr, if_neg (not_not_intro (hzero.2 hr))]
  · rw [if_neg hr, if_pos fun h0 => hr (hzero.1 h0)]

theorem picks_state (hr : t.rule = some r) : Picks last cp t.state r cp := by
  obtain ⟨act, hload, hrule, hzero, -⟩ := yyAccept_state t
  refine ⟨act, ?_, hrule.trans hr⟩
  unfold backUp
  rw [hload, ok_bind, if_neg fun h0 => ?_]
  rw [hzero.1 h0] at hr
  cases hr

theorem picks_last {state : Nat} (hstate : yyAccept.load state = .ok 0) (hr : t.rule = some r)
    (stop : Nat) : Picks ⟨t.state, stop⟩ cp state r stop := by
  obtain ⟨act, hload, hrule, -, -⟩ := yyAccept_state t
  refine ⟨act, ?_, hrule.trans hr⟩
  unfold backUp
  rw [hstate, ok_bind, if_pos rfl, hload]
  rfl

theorem backUp_end (stop cp : Nat) : backUp ⟨3, stop⟩ cp 13 = .ok (stop, YY_END_OF_BUFFER) := rfl

theorem yyAccept_none (hr : t.rule = none) : yyAccept.load t.state = .ok 0 := by
  obtain ⟨act, hload, -, hzero, -⟩ := yyAccept_state t
  rw [hload, hzero.2 hr]

theorem noted_open (hw : t.Walks u) (hne : u ≠ []) (ht : t.closed = false)
    (hl : t.Recorded textPtr last) :
    t.noted (textPtr + u.length) last = ⟨Stage.dollar.state, textPtr + 1⟩ := by
  cases t with
  | start => exact absurd hw.reads hne
  | dollar =>
    obtain rfl : u = [char '$'] := hw.reads
    rfl
  | payload | hash | digit => exact hl rfl nofun
  | other | newline | ack | nack | packet => cases ht

theorem recorded_next (hw : t.Walks u) (hl : t.Recorded textPtr last)
    (hnext : t.next k = some t') : t'.Recorded textPtr (t.noted (textPtr + u.length) last) := by
  intro hr _
  cases t with
  | start =>
    rw [next_start] at hnext
    split_ifs at hnext <;> cases hnext <;> cases hr
  | dollar =>
    obtain rfl : u = [char '$'] := hw.reads
    rfl
  | payload | hash | digit => exact hl rfl nofun
  | other | newline | ack | nack | packet => cases hnext

end Back

/-! ## Loops -/

section Loops

variable {t t' : Stage} {u cells : List (BitVec 8)} {last : Accepting} {cp textPtr size : Nat}
  {c d : BitVec 8}

theorem yyEc_class (hc : c ≠ 0) : yyEc.load c.toNat = .ok (charClass c) := by
  rw [yyEc_load, if_neg hc]

theorem matchLoop_cons (hc : c ≠ 0) : matchLoop size (c :: cells) cp t.state last =
    match t.next (charClass c) with
    | some t' =>
      if t'.closed then .ok (cp + 1, t'.state, t.noted cp last)
      else matchLoop size cells (cp + 1) t'.state (t.noted cp last)
    | none => .ok (cp + 1, 13, t.noted cp last) := by
  rw [matchLoop, yyEc_class hc, visit_stage]
  dsimp only [lift, ok_bind]
  rw [yyTransition_stage t (charClass_bounds c), ok_bind]
  cases t.next (charClass c) with
  | none => rfl
  | some t' =>
    obtain ⟨b, hload, hb⟩ := yyBase_state t'
    dsimp only [stateOf]
    rw [hload]
    dsimp only [lift, ok_bind]
    by_cases hclosed : t'.closed = true
    · rw [if_pos hclosed, if_neg (not_not_intro (hb.2 hclosed))]
    · rw [if_neg hclosed, if_pos fun h14 => hclosed (hb.1 h14)]

/-- A NUL brings the automaton to state 3, which is stuck at the cell behind it. -/
theorem matchLoop_nul : matchLoop size (0 :: d :: cells) cp t.state last =
    .ok (cp + 2, 13, ⟨3, cp + 1⟩) := by
  have hload : yyEc.load (0 : BitVec 8).toNat = .ok 0 := by rw [yyEc_load, if_pos rfl]
  obtain ⟨k, hk, hk8⟩ : ∃ k, yyEc.load d.toNat = .ok k ∧ k < 8 := by
    rw [yyEc_load]
    refine ⟨_, rfl, ?_⟩
    split
    · decide
    · exact (charClass_bounds d).2
  have hbase : yyBase.load 3 = .ok 13 := rfl
  have hstuck : yyBase.load 13 = .ok 14 := rfl
  have hvisit (last : Accepting) (cp : Nat) : last.visit 3 cp = .ok ⟨3, cp⟩ := rfl
  rw [matchLoop, hload, visit_stage]
  dsimp only [lift, ok_bind]
  rw [yyTransition_end, ok_bind, hbase]
  dsimp only [lift, ok_bind]
  rw [if_pos (by decide), matchLoop, hk, hvisit]
  dsimp only [lift, ok_bind]
  rw [yyTransition_three hk8, ok_bind, hstuck]
  dsimp only [lift, ok_bind]
  exact if_neg (not_not_intro rfl)

theorem previousLoop_cons (hnext : t.next (charClass c) = some t') :
    previousLoop (c :: cells) cp t.state last =
      previousLoop cells (cp + 1) t'.state (t.noted cp last) := by
  have hclass : previousClass c = .ok (charClass c) := by
    unfold previousClass
    by_cases h0 : c = 0
    · subst h0
      rfl
    · rw [if_pos h0, yyEc_class h0]
  rw [previousLoop, hclass, visit_stage]
  dsimp only [lift, ok_bind]
  rw [yyTransition_stage t (charClass_bounds c), hnext]
  rfl

theorem previousLoop_append (u v : List (BitVec 8)) (cp state : Nat) (last : Accepting) :
    previousLoop (u ++ v) cp state last =
      previousLoop u cp state last >>= fun x => previousLoop v (cp + u.length) x.1 x.2 := by
  induction u generalizing cp state last with
  | nil => rfl
  | cons c u ih =>
    simp only [List.cons_append, previousLoop, bind_assoc, ih, List.length_cons]
    rw [show cp + 1 + u.length = cp + (u.length + 1) by omega]

theorem previousLoop_walks (hw : t.Walks u) (textPtr : Nat) (last : Accepting) :
    ∃ last', previousLoop u textPtr 1 last = .ok (t.state, last') ∧
      t.Recorded textPtr last' := by
  induction hw with
  | nil => exact ⟨last, rfl, fun _ h => absurd rfl h⟩
  | snoc hw hnext ih =>
    obtain ⟨last', hloop, hl⟩ := ih
    refine ⟨_, ?_, recorded_next hw hl hnext⟩
    rw [previousLoop_append, hloop, ok_bind, previousLoop_cons hnext]
    rfl

end Loops

/-! ## One match -/

/-- At `yy_find_action`: a token at the front of `text`, whatever comes behind `more`. -/
def Finds (textPtr : Nat) (text more : List (BitVec 8)) (last : Accepting) (cp state : Nat) :
    Prop :=
  ∃ u v r, text = u ++ v ∧ u ≠ [] ∧ Picks last cp state r (textPtr + u.length) ∧
    scanner.tokens (text ++ more) = (r, u) :: scanner.tokens (v ++ more)

/-- At `yy_find_action`: the match has come to a NUL, or to the end of `text`. -/
structure Pauses (textPtr : Nat) (t : Stage) (u v : List (BitVec 8)) (last : Accepting)
    (cp state : Nat) : Prop where
  walks : t.Walks u
  closed : t.closed = true → u = [0]
  nul : ∀ c v', v = c :: v' → c = 0
  stop : backUp last cp state = .ok (textPtr + u.length + 1, YY_END_OF_BUFFER)

section Match

variable {t : Stage} {u v more : List (BitVec 8)} {last : Accepting} {cp state textPtr : Nat}

theorem finds_of_picks (hw : t.Walks u) (hne : u ≠ []) (hstuck : t.Stuck (v ++ more))
    (hmatched : ∀ r, t.rule = some r → Picks last cp state r (textPtr + u.length))
    (hunmatched : t.rule = none → Picks last cp state .other (textPtr + 1)) :
    Finds textPtr (u ++ v) more last cp state := by
  unfold Finds
  rw [List.append_assoc]
  cases hr : t.rule with
  | some r => exact ⟨u, v, r, rfl, hne, hmatched r hr, tokens_matched hw hstuck hr⟩
  | none =>
    obtain ⟨s, rfl, htokens⟩ := tokens_unmatched hw hne hstuck hr
    refine ⟨[char '$'], s ++ v, .other, rfl, List.cons_ne_nil _ _, hunmatched hr, ?_⟩
    rw [htokens, List.append_assoc]

theorem finds_stuck {c : BitVec 8} (hw : t.Walks u) (hl : t.Recorded textPtr last)
    (hnext : t.next (charClass c) = none) :
    Finds textPtr (u ++ c :: v) more (t.noted (textPtr + u.length) last) cp 13 := by
  have hne : u ≠ [] := hw.ne_nil hnext
  refine finds_of_picks hw hne ?_ (fun r hr => ?_) fun hr => ?_
  · rintro c' r' hcons
    obtain ⟨rfl, -⟩ := List.cons.inj hcons
    exact hnext
  · unfold Stage.noted
    rw [hr, if_neg nofun]
    exact picks_last rfl hr _
  · rw [noted_open hw hne (open_of_unmatched hr) hl]
    exact picks_last rfl rfl _

theorem finds_closed (hw : t.Walks u) (hne : u ≠ []) (ht : t.closed = true) :
    Finds textPtr (u ++ v) more last (textPtr + u.length) t.state := by
  refine finds_of_picks hw hne (stuck_of_closed ht) (fun r hr => picks_state hr) fun hr => ?_
  rw [open_of_unmatched hr] at ht
  cases ht

/-- **One match**, from a state on the way to a token: an induction on what is left of the
text. -/
theorem matchLoop_spec (size : Nat) (more : List (BitVec 8)) (hw : t.Walks u)
    (hl : t.Recorded textPtr last) (hc : t.closed = true → u = [0]) :
    ∃ cp state last', matchLoop size (v ++ [0, 0]) (textPtr + u.length) t.state last =
        .ok (cp, state, last') ∧
      (Finds textPtr (u ++ v) more last' cp state ∨
        ∃ t' u' v', u ++ v = u' ++ v' ∧ u.length ≤ u'.length ∧
          Pauses textPtr t' u' v' last' cp state) := by
  induction v generalizing t u last with
  | nil =>
    refine ⟨_, _, _, matchLoop_nul, .inr ⟨t, u, [], rfl, Nat.le_refl _, hw, hc, nofun, ?_⟩⟩
    exact backUp_end _ _
  | cons c v ih =>
    by_cases h0 : c = 0
    · subst h0
      obtain ⟨d, cells, hcells⟩ : ∃ d cells, v ++ [0, 0] = d :: cells := by
        cases v with
        | nil => exact ⟨_, _, rfl⟩
        | cons d v => exact ⟨d, _, rfl⟩
      rw [List.cons_append, hcells]
      refine ⟨_, _, _, matchLoop_nul, .inr ⟨t, u, 0 :: v, rfl, Nat.le_refl _, hw, hc, ?_, ?_⟩⟩
      · rintro c' v' hcons
        exact (List.cons.inj hcons).1.symm
      · exact backUp_end _ _
    · rw [List.cons_append, matchLoop_cons h0]
      cases hnext : t.next (charClass c) with
      | none => exact ⟨_, _, _, rfl, .inl (finds_stuck hw hl hnext)⟩
      | some t' =>
        have hw' : t'.Walks (u ++ [c]) := .snoc hw hnext
        have hlen : textPtr + u.length + 1 = textPtr + (u ++ [c]).length := by
          rw [List.length_append, List.length_singleton]
          omega
        have happ : u ++ c :: v = u ++ [c] ++ v := by simp
        dsimp only
        rw [hlen, happ]
        by_cases hclosed : t'.closed = true
        · rw [if_pos hclosed]
          exact ⟨_, _, _, rfl, .inl (finds_closed hw' (by simp) hclosed)⟩
        · rw [if_neg hclosed]
          obtain ⟨cp, state, last', hloop, hend⟩ :=
            ih hw' (recorded_next hw hl hnext) fun h => absurd h hclosed
          refine ⟨cp, state, last', hloop, hend.imp_right ?_⟩
          rintro ⟨t₁, u₁, v₁, heq, hle, hpause⟩
          refine ⟨t₁, u₁, v₁, heq, ?_, hpause⟩
          rw [List.length_append] at hle
          omega

end Match

end Armator.Sim
