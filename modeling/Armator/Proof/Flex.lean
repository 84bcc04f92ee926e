import Armator.Lib.Emitter
import Armator.Proof.Matching

/-!
# The scanner over its buffer

However the input is cut into what the calls of `read` return, the scanner that `flex` has made
puts out the tokens of `scanner.l`, and runs their actions. It reads more only where it has to.
-/

namespace Armator.Sim

open Lib

/-! ## The end of the buffer -/

/-- What is in the buffer from `yytext_ptr` on. -/
def Yyguts.text (g : Yyguts) : List (BitVec 8) := g.chBuf.drop g.textPtr

/-- What `read` gives before it gives nothing. -/
def received (reads : List (List (BitVec 8))) : List (BitVec 8) :=
  (reads.takeWhile (· ≠ [])).flatten

/-- What `read` is still to give. -/
def Yyguts.incoming (g : Yyguts) : List (BitVec 8) :=
  if g.eofPending then [] else received g.reads

/-- The input that is left. -/
def Yyguts.input (g : Yyguts) : List (BitVec 8) := g.text ++ g.incoming

/-- At `yy_match`: the text `u` up to `yy_cp` has brought the automaton to the state `t`. -/
structure Matching (g : Yyguts) (cp state : Nat) (t : Stage) (u v : List (BitVec 8)) : Prop where
  text : g.text = u ++ v
  cp : cp = g.textPtr + u.length
  state : state = t.state
  walks : t.Walks u
  recorded : t.Recorded g.textPtr g.last
  closed : t.closed = true → u = [0]

/-- What holds at the labels. -/
def Flex.Ready (s : Flex) : Prop :=
  s.guts.textPtr ≤ s.guts.chBuf.length ∧
    match s.label with
    | .yyMatch cp state => ∃ t u v, Matching s.guts cp state t u v
    | .yyFindAction cp state =>
      Finds s.guts.textPtr s.guts.text s.guts.incoming s.guts.last cp state

/-- How much of the buffer is still to be matched. -/
def Flex.ahead (s : Flex) : Nat :=
  match s.label with
  | .yyMatch cp _ => s.guts.chBuf.length + 1 - cp
  | .yyFindAction _ _ => 0

/-- There is less left of the input, or of what is to be read, or of the buffer. -/
def Flex.Less (s' s : Flex) : Prop :=
  Prod.Lex (· < ·) (Prod.Lex (· < ·) (· < ·))
    (s'.guts.input.length, s'.guts.reads.length, s'.ahead)
    (s.guts.input.length, s.guts.reads.length, s.ahead)

section End

variable {t : Stage} {u v : List (BitVec 8)} {g : Yyguts}

theorem cells_drop (hle : g.textPtr ≤ g.chBuf.length) :
    g.cells.drop g.textPtr = g.text ++ [0, 0] := List.drop_append_of_le_length hle

theorem cells_take (hle : g.textPtr ≤ g.chBuf.length) (htext : g.text = u ++ v) :
    (g.cells.drop g.textPtr).take (g.textPtr + u.length - g.textPtr) = u := by
  rw [cells_drop hle, htext, List.append_assoc, Nat.add_sub_cancel_left]
  exact List.take_left

theorem yyGetPreviousState_walks (hle : g.textPtr ≤ g.chBuf.length) (htext : g.text = u ++ v)
    (hp : g.cBufP = g.textPtr + u.length) (hw : t.Walks u) :
    ∃ last, yyGetPreviousState g = .ok (t.state, { g with last := last }) ∧
      t.Recorded g.textPtr last := by
  obtain ⟨last, hloop, hl⟩ := previousLoop_walks hw g.textPtr g.last
  refine ⟨last, ?_, hl⟩
  unfold yyGetPreviousState
  dsimp only
  rw [hp, cells_take hle htext, hloop]
  rfl

theorem yyTryNulTrans_stage (t : Stage) (g : Yyguts) : yyTryNulTrans g t.state =
    .ok (match t.next (charClass 0) with
      | some t' => t'.state
      | none => 0, { g with last := t.noted g.cBufP g.last }) := by
  have hclass : charClass 0 = 1 := rfl
  unfold yyTryNulTrans
  rw [visit_stage, hclass]
  dsimp only [lift, ok_bind]
  rw [yyTransition_stage t ⟨Nat.one_pos, by decide⟩, ok_bind]
  cases t.next 1 with
  | none => rfl
  | some t' => cases t' <;> rfl

theorem finds_state {more : List (BitVec 8)} {last : Accepting} {textPtr : Nat} (hw : t.Walks u)
    (hne : u ≠ []) (hstuck : t.Stuck (v ++ more)) (hl : t.Recorded textPtr last) :
    Finds textPtr (u ++ v) more last (textPtr + u.length) t.state := by
  refine finds_of_picks hw hne hstuck (fun r hr => picks_state hr) fun hr => ?_
  have hstart : t ≠ .start := by
    rintro rfl
    exact hne hw.reads
  rw [hl hr hstart]
  exact picks_last (yyAccept_none hr) rfl _

theorem endOfBuffer_nul (hle : g.textPtr ≤ g.chBuf.length) (htext : g.text = u ++ 0 :: v)
    (hp : g.cBufP = g.textPtr + u.length + 1) (hw : t.Walks u) :
    ∃ s', endOfBuffer g = .ok (some s') ∧ s'.Ready ∧ s'.guts.input = g.input ∧
      s'.guts.reads = g.reads ∧ s'.ahead < g.chBuf.length + 2 - g.cBufP := by
  have hsize : g.chBuf.length = g.textPtr + (u.length + (v.length + 1)) := by
    have hlen := congrArg List.length htext
    rw [Yyguts.text, List.length_drop, List.length_append, List.length_cons] at hlen
    omega
  have hamount : g.textPtr + (g.cBufP - g.textPtr - 1) = g.textPtr + u.length := by omega
  let g₁ : Yyguts := { g with cBufP := g.textPtr + (g.cBufP - g.textPtr - 1) }
  have hp₁ : g₁.cBufP = g₁.textPtr + u.length := hamount
  obtain ⟨last, hprevious, hl⟩ := yyGetPreviousState_walks (g := g₁) hle htext hp₁ hw
  unfold endOfBuffer
  dsimp only
  rw [if_pos (by omega)]
  change ∃ s', (yyGetPreviousState g₁ >>= _) = .ok (some s') ∧ _
  rw [hprevious]
  dsimp only [ok_bind]
  rw [yyTryNulTrans_stage]
  have hlast : t.noted g₁.cBufP last = t.noted (g.textPtr + u.length) last := by rw [hp₁]
  cases hnext : t.next (charClass 0) with
  | none =>
    have hfinds : Finds g.textPtr g.text g.incoming (t.noted (g.textPtr + u.length) last)
        (g.textPtr + u.length) t.state := by
      rw [htext]
      refine finds_of_picks hw (hw.ne_nil hnext) ?_ (fun r hr => picks_state hr) fun hr => ?_
      · rintro c r hcons
        obtain ⟨rfl, -⟩ := List.cons.inj hcons
        exact hnext
      · rw [noted_open hw (hw.ne_nil hnext) (open_of_unmatched hr) hl]
        exact picks_last (yyAccept_none hr) rfl _
    rw [← hlast, ← hamount] at hfinds
    refine ⟨_, rfl, ⟨hle, hfinds⟩, rfl, rfl, ?_⟩
    change 0 < _
    omega
  | some t' =>
    have hmatching : Matching { g₁ with last := t.noted g₁.cBufP last, cBufP := g₁.cBufP + 1 }
        (g₁.cBufP + 1) t'.state t' (u ++ [0]) v := by
      refine ⟨?_, ?_, rfl, .snoc hw hnext, ?_, ?_⟩
      · change g.text = _
        rw [htext, List.append_assoc]
        rfl
      · rw [hp₁, List.length_append]
        rfl
      · rw [hp₁]
        exact recorded_next hw hl hnext
      · intro ht
        rw [hw.nul hnext ht]
        rfl
    dsimp only [ok_bind]
    refine ⟨_, if_pos ?_, ⟨hle, t', u ++ [0], v, hmatching⟩, rfl, rfl, ?_⟩
    · cases t' <;> decide
    · rw [hp₁]
      change g.chBuf.length + 1 - (g.textPtr + u.length + 1) < _
      omega

theorem received_cons {r : List (BitVec 8)} {reads : List (List (BitVec 8))} (hr : r ≠ []) :
    received (r :: reads) = r ++ received reads := by
  unfold received
  rw [List.takeWhile_cons_of_pos (by simpa using hr), List.flatten_cons]

/-- The result of `yy_get_next_buffer` behind the text `u` when `r` has been read. -/
def Yyguts.refilled (g : Yyguts) (u r : List (BitVec 8)) (reads : List (List (BitVec 8))) :
    EobAct × Yyguts :=
  if r = [] then
    if u = [] then (.endOfFile, ⟨[], 0, 0, g.last, false, reads⟩)
    else (.lastMatch, ⟨u, 0, g.cBufP, g.last, true, reads⟩)
  else (.continueScan, ⟨u ++ r, 0, g.cBufP, g.last, g.eofPending, reads⟩)

/-- What is read, and what is left to read. -/
def Yyguts.read (g : Yyguts) : List (BitVec 8) × List (List (BitVec 8)) :=
  if g.eofPending then ([], g.reads)
  else
    match g.reads with
    | [] => ([], [])
    | r :: reads => (r, reads)

theorem yyGetNextBuffer_read (hle : g.textPtr ≤ g.chBuf.length) (htext : g.text = u)
    (hp : g.cBufP = g.textPtr + u.length + 1) :
    yyGetNextBuffer g = .ok (g.refilled u g.read.1 g.read.2) := by
  have hsize : g.chBuf.length = g.textPtr + u.length := by
    have hlen := congrArg List.length htext
    rw [Yyguts.text, List.length_drop] at hlen
    omega
  have hamount : g.cBufP - g.textPtr - 1 = u.length := by omega
  have hmoved : (g.cells.drop g.textPtr).take u.length = u := by
    rw [cells_drop hle, htext, List.take_left]
  have hread (x : List (BitVec 8) × List (List (BitVec 8))) :
      (if x.1 = [] then
        if u.length = 0 then
          .ok (.endOfFile, ⟨u ++ x.1, 0, 0, g.last, false, x.2⟩)
        else .ok (.lastMatch, ⟨u ++ x.1, 0, g.cBufP, g.last, true, x.2⟩)
      else .ok (.continueScan, ⟨u ++ x.1, 0, g.cBufP, g.last, g.eofPending, x.2⟩)) =
        (.ok (g.refilled u x.1 x.2) : Except Halt (EobAct × Yyguts)) := by
    obtain ⟨r, reads⟩ := x
    unfold Yyguts.refilled
    dsimp only
    by_cases hr : r = []
    · rw [if_pos hr, if_pos hr, hr, List.append_nil]
      by_cases hu : u = []
      · rw [if_pos hu, hu]
        rfl
      · rw [if_neg hu, if_neg (mt List.length_eq_zero_iff.1 hu)]
    · rw [if_neg hr, if_neg hr]
  unfold yyGetNextBuffer
  dsimp only
  rw [if_neg (by omega), hamount, hmoved]
  exact hread g.read

/-- What `yy_get_next_buffer` does at the end of the text `u`. -/
theorem yyGetNextBuffer_cases (hle : g.textPtr ≤ g.chBuf.length) (htext : g.text = u)
    (hp : g.cBufP = g.textPtr + u.length + 1) :
    (g.incoming = [] ∧ ∃ reads,
      (reads.length < g.reads.length ∧ g.eofPending = false ∨ reads = g.reads) ∧
      yyGetNextBuffer g = .ok (g.refilled u [] reads)) ∨
    ∃ r reads, r ≠ [] ∧ g.eofPending = false ∧ g.reads = r :: reads ∧
      yyGetNextBuffer g = .ok (.continueScan, ⟨u ++ r, 0, g.cBufP, g.last, false, reads⟩) := by
  have hnext := yyGetNextBuffer_read hle htext hp
  obtain ⟨chBuf, textPtr, cBufP, last, eofPending, reads⟩ := g
  cases eofPending with
  | true => exact .inl ⟨rfl, reads, .inr rfl, hnext⟩
  | false =>
    cases reads with
    | nil => exact .inl ⟨rfl, [], .inr rfl, hnext⟩
    | cons r reads =>
      by_cases hr : r = []
      · subst hr
        exact .inl ⟨rfl, reads, .inl ⟨Nat.lt_succ_self _, rfl⟩, hnext⟩
      · refine .inr ⟨r, reads, hr, rfl, rfl, hnext.trans (congrArg Except.ok ?_)⟩
        exact if_neg hr

/-- The end of the text: either more of it is read, or it is all there is. -/
theorem endOfBuffer_more (hle : g.textPtr ≤ g.chBuf.length) (htext : g.text = u)
    (hp : g.cBufP = g.textPtr + u.length + 1) (hw : t.Walks u)
    (hc : t.closed = true → u = [0]) :
    endOfBuffer g = .ok none ∧ g.input = [] ∨
      ∃ s', endOfBuffer g = .ok (some s') ∧ s'.Ready ∧ s'.guts.input = g.input ∧
        (s'.guts.reads.length < g.reads.length ∧ g.eofPending = false ∨
          s'.guts.reads = g.reads ∧ s'.ahead < g.chBuf.length + 2 - g.cBufP) := by
  have hsize : g.chBuf.length = g.textPtr + u.length := by
    have hlen := congrArg List.length htext
    rw [Yyguts.text, List.length_drop] at hlen
    omega
  have hamount : g.cBufP - g.textPtr - 1 = u.length := by omega
  unfold endOfBuffer
  dsimp only
  rw [if_neg (by omega), hamount]
  rcases yyGetNextBuffer_cases hle htext hp with
    ⟨hnone, reads, hreads, hnext⟩ | ⟨r, reads, hr, hpending, hreads, hnext⟩
  · rw [hnext, Yyguts.refilled, if_pos rfl]
    by_cases hu : u = []
    · rw [if_pos hu]
      refine .inl ⟨rfl, ?_⟩
      rw [Yyguts.input, htext, hu, hnone]
      rfl
    · rw [if_neg hu]
      let g₁ : Yyguts := ⟨u, 0, u.length, g.last, true, reads⟩
      obtain ⟨last, hprevious, hl⟩ := yyGetPreviousState_walks (g := g₁) (u := u) (v := [])
        (Nat.zero_le _) (List.append_nil u).symm (Nat.zero_add _).symm hw
      have hfinds : Finds 0 (u ++ []) [] last (0 + u.length) t.state :=
        finds_state hw hu nofun hl
      rw [List.append_nil, Nat.zero_add] at hfinds
      refine .inr ⟨⟨{ g₁ with last := last }, .yyFindAction u.length t.state⟩, ?_,
        ⟨Nat.zero_le _, hfinds⟩, ?_, hreads.imp_right fun he => ⟨he, ?_⟩⟩
      · change (yyGetPreviousState g₁ >>= _) = _
        rw [hprevious]
        rfl
      · rw [Yyguts.input, Yyguts.input, hnone, htext]
        rfl
      · change 0 < _
        omega
  · rw [hnext]
    let g₁ : Yyguts := ⟨u ++ r, 0, 0 + u.length, g.last, false, reads⟩
    obtain ⟨last, hprevious, hl⟩ := yyGetPreviousState_walks (g := g₁) (u := u) (v := r)
      (Nat.zero_le _) rfl rfl hw
    have hmatching : Matching { g₁ with last := last } (0 + u.length) t.state t u r :=
      ⟨rfl, rfl, rfl, hw, hl, hc⟩
    refine .inr ⟨⟨{ g₁ with last := last }, .yyMatch (0 + u.length) t.state⟩, ?_,
      ⟨Nat.zero_le _, t, u, r, hmatching⟩, ?_, .inl ?_⟩
    · change (yyGetPreviousState g₁ >>= _) = _
      rw [hprevious]
      rfl
    · have hincoming : g.incoming = r ++ received reads := by
        unfold Yyguts.incoming
        rw [hpending, hreads]
        exact received_cons hr
      rw [Yyguts.input, Yyguts.input, hincoming, htext]
      exact List.append_assoc u r (received reads)
    · rw [hreads]
      exact ⟨Nat.lt_succ_self _, hpending⟩

end End

/-! ## Steps -/

/-- Text that does not let the scanner put out a token: nothing, a single NUL, or the beginning of
a packet. -/
def Unfinished (text : List (BitVec 8)) : Prop :=
  text = [] ∨ text = [0] ∨ ∃ v, v ≠ [] ∧ IsPacket (text ++ v)

/-- A step makes the state less, and it reads more only where it has to. -/
def Flex.Leads (s' s : Flex) : Prop :=
  s'.Less s ∧
    (s'.guts.reads = s.guts.reads ∨ s.guts.eofPending = false ∧ Unfinished s.guts.text)

section Steps

variable {t : Stage} {u v : List (BitVec 8)} {g : Yyguts} {s s' : Flex} {cp state : Nat}

theorem Flex.less_wf : WellFounded Flex.Less :=
  InvImage.wf _ (Prod.lex Nat.lt_wfRel (Prod.lex Nat.lt_wfRel Nat.lt_wfRel)).wf

theorem leads_wf : WellFounded Flex.Leads :=
  Subrelation.wf (fun h => h.1) Flex.less_wf

theorem less_of_input (h : s'.guts.input.length < s.guts.input.length) : s'.Less s := .left _ _ h

theorem less_of_reads (hinput : s'.guts.input = s.guts.input)
    (h : s'.guts.reads.length < s.guts.reads.length ∨
      s'.guts.reads = s.guts.reads ∧ s'.ahead < s.ahead) : s'.Less s := by
  unfold Flex.Less
  rw [hinput]
  rcases h with h | ⟨hreads, h⟩
  · exact .right _ (.left _ _ h)
  · rw [hreads]
    exact .right _ (.right _ h)

theorem findAction_finds (hle : g.textPtr ≤ g.chBuf.length)
    (hf : Finds g.textPtr g.text g.incoming g.last cp state) :
    ∃ s' token, findAction g cp state = .ok (some (s', [token])) ∧ s'.Ready ∧
      scanner.tokens g.input = token :: scanner.tokens s'.guts.input ∧
      s'.guts.input.length < g.input.length ∧ s'.guts.reads = g.reads := by
  obtain ⟨u, v, r, htext, hne, ⟨act, hback, hrule⟩, htokens⟩ := hf
  have hsize : g.textPtr + u.length ≤ g.chBuf.length := by
    have hlen := congrArg List.length htext
    rw [Yyguts.text, List.length_drop, List.length_append] at hlen
    omega
  have hrest : g.chBuf.drop (g.textPtr + u.length) = v := by
    rw [← List.drop_drop]
    change g.text.drop u.length = v
    rw [htext, List.drop_left]
  have h0 : act ≠ 0 := by
    rintro rfl
    cases hrule
  have h6 : act ≠ YY_END_OF_BUFFER := by
    rintro rfl
    cases hrule
  let g' : Yyguts := { g with cBufP := g.textPtr + u.length, textPtr := g.textPtr + u.length }
  refine ⟨⟨g', .yyMatch (g.textPtr + u.length) 1⟩, (r, u), ?_, ⟨hsize, .start, [], v, ?_⟩, ?_, ?_,
    rfl⟩
  · unfold findAction
    rw [hback]
    dsimp only [lift, ok_bind]
    unfold doAction
    rw [if_neg h0, if_neg h6, hrule]
    have htake : (g.cells.drop g.textPtr).take (g.textPtr + u.length - g.textPtr) = u :=
      cells_take hle htext
    change Except.ok (some (_, [(r, (g.cells.drop g.textPtr).take _)])) = _
    rw [htake]
  · exact ⟨hrest, rfl, rfl, .nil, fun _ h => absurd rfl h, nofun⟩
  · have hinput : g'.input = v ++ g.incoming := congrArg (· ++ g.incoming) hrest
    rw [Yyguts.input, htokens, hinput]
  · have hinput : g'.input = v ++ g.incoming := congrArg (· ++ g.incoming) hrest
    have hpos : 0 < u.length := List.length_pos_iff.2 hne
    change g'.input.length < _
    rw [hinput, Yyguts.input, htext]
    simp only [List.length_append]
    omega

theorem Pauses.unfinished {textPtr : Nat} {last : Accepting}
    (hp : Pauses textPtr t u [] last cp state) : Unfinished u := by
  by_cases hu : u = []
  · exact .inl hu
  · cases hc : t.closed with
    | true => exact .inr (.inl (hp.closed hc))
    | false => exact .inr (.inr (hp.walks.completes hu hc))

theorem findAction_pauses (hle : g.textPtr ≤ g.chBuf.length) (htext : g.text = u ++ v)
    (hp : Pauses g.textPtr t u v g.last cp state) :
    findAction g cp state = .ok none ∧ g.input = [] ∨
      ∃ s', findAction g cp state = .ok (some (s', [])) ∧ s'.Ready ∧ s'.guts.input = g.input ∧
        (s'.guts.reads.length < g.reads.length ∧ g.eofPending = false ∧ Unfinished g.text ∨
          s'.guts.reads = g.reads ∧ s'.ahead < g.chBuf.length + 1 - (g.textPtr + u.length)) := by
  let g' : Yyguts := { g with cBufP := g.textPtr + u.length + 1 }
  have hfind : findAction g cp state =
      endOfBuffer g' >>= fun next => .ok (next.map fun s => (s, [])) := by
    unfold findAction
    rw [hp.stop]
    rfl
  rw [hfind]
  cases v with
  | cons c v =>
    obtain rfl := hp.nul c v rfl
    obtain ⟨s', hend, hready, hinput, hreads, hahead⟩ :=
      endOfBuffer_nul (g := g') hle htext rfl hp.walks
    refine .inr ⟨s', ?_, hready, hinput, .inr ⟨hreads, ?_⟩⟩
    · rw [hend]
      rfl
    · change _ < g.chBuf.length + 2 - (g.textPtr + u.length + 1) at hahead
      omega
  | nil =>
    rw [List.append_nil] at htext
    have hunfinished : Unfinished g.text := htext ▸ hp.unfinished
    rcases endOfBuffer_more (g := g') hle htext rfl hp.walks hp.closed with
      ⟨hend, hinput⟩ | ⟨s', hend, hready, hinput, hreads⟩
    · exact .inl ⟨by rw [hend]; rfl, hinput⟩
    · refine .inr ⟨s', by rw [hend]; rfl, hready, hinput, ?_⟩
      refine hreads.imp (fun h => ⟨h.1, h.2, hunfinished⟩) fun ⟨h, hahead⟩ => ⟨h, ?_⟩
      change _ < g.chBuf.length + 2 - (g.textPtr + u.length + 1) at hahead
      omega

/-- What is left by the match, at `yy_find_action`. -/
def Flex.found (s : Flex) : Except Halt (Nat × Nat × Accepting) :=
  match s.label with
  | .yyMatch cp state => matchLoop s.guts.cells.length (s.guts.cells.drop cp) cp state s.guts.last
  | .yyFindAction cp state => .ok (cp, state, s.guts.last)

theorem Flex.step_eq (s : Flex) : s.step =
    (s.found >>= fun x => findAction { s.guts with last := x.2.2 } x.1 x.2.1) := by
  obtain ⟨g, label⟩ := s
  cases label <;> rfl

theorem found_ready (hs : s.Ready) : ∃ cp state last, s.found = .ok (cp, state, last) ∧
    (Finds s.guts.textPtr s.guts.text s.guts.incoming last cp state ∨
      ∃ t u v, s.guts.text = u ++ v ∧
        s.guts.chBuf.length + 1 - (s.guts.textPtr + u.length) ≤ s.ahead ∧
        Pauses s.guts.textPtr t u v last cp state) := by
  obtain ⟨hle, hlabel⟩ := hs
  obtain ⟨g, label⟩ := s
  cases label with
  | yyFindAction cp state => exact ⟨cp, state, g.last, rfl, .inl hlabel⟩
  | yyMatch cp state =>
    obtain ⟨t, u, v, htext, hcp, hstate, hw, hl, hc⟩ := hlabel
    dsimp only at hle htext hcp hl ⊢
    have hcells : g.cells.drop cp = v ++ [0, 0] := by
      rw [hcp, ← List.drop_drop, cells_drop hle, htext, List.append_assoc, List.drop_left]
    obtain ⟨cp', state', last, hloop, hend⟩ :=
      matchLoop_spec (v := v) g.cells.length g.incoming hw hl hc
    refine ⟨cp', state', last, ?_, ?_⟩
    · unfold Flex.found
      dsimp only
      rw [hcells, hcp, hstate, hloop]
    · rw [htext]
      refine hend.imp_right ?_
      rintro ⟨t', u', v', htext', hlonger, hpauses⟩
      refine ⟨t', u', v', htext', ?_, hpauses⟩
      change _ ≤ g.chBuf.length + 1 - cp
      omega

/-- **The step of the scanner.** -/
theorem flex_advances (hs : s.Ready) :
    Advances Flex.step Flex.Ready (fun s => scanner.tokens s.guts.input) Flex.Leads s := by
  obtain ⟨cp, state, last, hfound, hend⟩ := found_ready hs
  have hle : s.guts.textPtr ≤ s.guts.chBuf.length := hs.1
  have hstep := s.step_eq
  rw [hfound, ok_bind] at hstep
  let g : Yyguts := { s.guts with last := last }
  rcases hend with hfinds | ⟨t, u, v, htext, hahead, hpauses⟩
  · obtain ⟨s', token, hfind, hready, htokens, hinput, hreads⟩ :=
      findAction_finds (g := g) hle hfinds
    exact .inr ⟨s', [token], hstep.trans hfind, hready, htokens, less_of_input hinput,
      .inl hreads⟩
  · rcases findAction_pauses (g := g) hle htext hpauses with
      ⟨hfind, hinput⟩ | ⟨s', hfind, hready, hinput, hreads⟩
    · refine .inl ⟨hstep.trans hfind, ?_⟩
      change scanner.tokens g.input = []
      rw [hinput, Lexer.tokens_nil]
    · refine .inr ⟨s', [], hstep.trans hfind, hready, ?_, less_of_reads hinput ?_, ?_⟩
      · exact congrArg scanner.tokens hinput.symm
      · exact hreads.imp And.left (And.imp_right fun h => h.trans_le hahead)
      · rcases hreads with ⟨-, hwaits⟩ | ⟨h, -⟩
        · exact .inr hwaits
        · exact .inl h

end Steps

/-! ## Runs -/

theorem ready_start (reads : List (List (BitVec 8))) : (Flex.start reads).Ready :=
  ⟨Nat.le_refl 0, .start, [], [], rfl, rfl, rfl, .nil, fun _ h => absurd rfl h, nofun⟩

/-- **`flex` has made the scanner of `scanner.l`**: however the input is cut into what `read`
returns, `yylex` goes through its tokens and comes to an end. -/
theorem flex_tokens (reads : List (List (BitVec 8))) :
    ∃ n, ∀ steps, n ≤ steps →
      outputs Flex.step .running steps (Flex.start reads) =
        .ok (scanner.tokens (received reads)) :=
  outputs_of_advances leads_wf (fun _ => flex_advances) (ready_start reads)

section Prompt

variable {p w text : List (BitVec 8)} {sent reads : List (List (BitVec 8))}

theorem received_append (hsent : ∀ r ∈ sent, r ≠ []) :
    received (sent ++ reads) = sent.flatten ++ received reads := by
  induction sent with
  | nil => rfl
  | cons r sent ih =>
    obtain ⟨hr, hrest⟩ := List.forall_mem_cons.1 hsent
    rw [List.cons_append, received_cons hr, ih hrest, List.flatten_cons, List.append_assoc]

theorem Unfinished.eq_nil (ht : Unfinished text) (hp : IsPacket p) (hsuffix : text <:+ w ++ p) :
    text = [] := by
  rcases ht with hnil | rfl | ⟨v, hv, hpacket⟩
  · exact hnil
  · obtain ⟨payload, x, y, rfl, -, -, hy⟩ := hp
    obtain ⟨o, ho⟩ := hsuffix
    have hsnoc : w ++ char '$' :: (payload ++ [char '#', x, y]) =
        (w ++ char '$' :: (payload ++ [char '#', x])) ++ [y] := by simp
    obtain ⟨-, hlast⟩ := List.append_inj' (ho.trans hsnoc) rfl
    cases hlast
    cases hy
  · -- it would have a second `$`, or be the packet, which is not the beginning of another
    by_contra hne
    obtain ⟨payload, x, y, htext, -⟩ := id hpacket
    cases text with
    | nil => exact hne rfl
    | cons c text =>
      obtain ⟨rfl, -⟩ := List.cons.inj htext
      have hno : char '$' ∉ text := fun hin =>
        not_mem_of_isPacket (isPacket_iff.2 hpacket) (List.mem_append_left v hin)
      have hother : char '$' :: text ≠ p := by
        rintro rfl
        have hsep := separate_packet hp v _ v (List.suffix_refl _) hne (List.prefix_refl v) hv
        rw [accepts_of_length (two_le_length_append hne hv), isPacket_iff.2 hpacket] at hsep
        cases hsep
      obtain ⟨q, x', y', rfl, -⟩ := id hp
      have hno' := not_mem_of_isPacket (isPacket_iff.2 hp)
      rcases List.suffix_or_suffix_of_suffix hsuffix (List.suffix_append w _) with h | h
      · rcases List.suffix_cons_iff.1 h with heq | h
        · exact hother heq
        · exact hno' (h.mem List.mem_cons_self)
      · rcases List.suffix_cons_iff.1 h with heq | h
        · exact hother heq.symm
        · exact hno (h.mem List.mem_cons_self)

/-- **Requests are handled promptly**: before the scanner reads the next part of the input, it has
put out every token of what was read before, if that ends with a packet. -/
theorem flex_prompt {r : List (BitVec 8)} {s s' : Flex}
    {out out' : List (Rule × List (BitVec 8))} (hsent : ∀ r ∈ sent, r ≠ [])
    (hrun : Runs Flex.step (Flex.start (sent ++ r :: reads)) out s)
    (hreads : s.guts.reads = r :: reads) (hstep : s.step = .ok (some (s', out')))
    (hread : s'.guts.reads = reads) (hp : IsPacket p) (htext : sent.flatten = w ++ p) :
    out = scanner.tokens w ++ [(.packet, p)] := by
  obtain ⟨hready, htokens⟩ := hrun.advances (fun _ => flex_advances) (ready_start _)
  obtain ⟨-, -, -, hwaits⟩ := (flex_advances hready).of_step hstep
  obtain ⟨hpending, hunfinished⟩ := hwaits.resolve_left fun heq => by
    rw [hread, hreads] at heq
    exact absurd (congrArg List.length heq) (Nat.ne_of_lt (Nat.lt_succ_self _))
  have hinput : s.guts.input = s.guts.text ++ received (r :: reads) := by
    rw [Yyguts.input, Yyguts.incoming, hpending, hreads]
    rfl
  have hstart : (Flex.start (sent ++ r :: reads)).guts.input =
      w ++ (p ++ received (r :: reads)) := by
    rw [← List.append_assoc, ← htext, ← received_append hsent]
    rfl
  rw [hinput, hstart] at htokens
  have hbytes := congrArg (List.flatMap Prod.snd) htokens
  rw [List.flatMap_append, Lexer.flatMap_tokens, Lexer.flatMap_tokens, ← List.append_assoc,
    ← List.append_assoc] at hbytes
  have hsuffix : s.guts.text <:+ w ++ p := ⟨_, (List.append_cancel_right hbytes).symm⟩
  have hsep : scanner.Separate w (p ++ received (r :: reads)) := by
    obtain ⟨payload, x, y, rfl, -, -, -⟩ := hp
    exact separate_dollar w _
  rw [hunfinished.eq_nil hp hsuffix, List.nil_append, Lexer.tokens_append hsep,
    Lexer.tokens_append (separate_packet hp _), tokens_packet hp, ← List.append_assoc] at htokens
  exact (List.append_cancel_right htokens).symm

end Prompt

/-- A request `g`, and an acknowledgement that is read after it. -/
theorem flex_prompt_dump : ∃ s out,
    Runs Flex.step (Flex.start [text "$g#67", text "+"]) out s ∧ s.guts.reads = [text "+"] ∧
      out = scanner.tokens [] ++ [(.packet, text "$g#67")] := by
  let s₁ : Flex := ⟨⟨text "$g#67", 0, 0, ⟨3, 1⟩, false, [text "+"]⟩, .yyMatch 0 1⟩
  let s₂ : Flex := ⟨⟨text "$g#67", 5, 5, ⟨6, 1⟩, false, [text "+"]⟩, .yyMatch 5 1⟩
  let s₃ : Flex := ⟨⟨text "+", 0, 0, ⟨3, 6⟩, false, []⟩, .yyMatch 0 1⟩
  have hread : Flex.step (Flex.start [text "$g#67", text "+"]) = .ok (some (s₁, [])) := by
    decide +kernel
  have htoken : s₁.step = .ok (some (s₂, [(.packet, text "$g#67")])) := by decide +kernel
  have hmore : s₂.step = .ok (some (s₃, [])) := by decide +kernel
  have hp : IsPacket (text "$g#67") := isPacket_iff.1 (by decide)
  have hrun : Runs Flex.step (Flex.start [text "$g#67", text "+"]) _ s₂ :=
    .tail (.tail .refl hread) htoken
  have hsent : ∀ r ∈ [text "$g#67"], r ≠ [] := by decide
  exact ⟨s₂, _, hrun, rfl, flex_prompt hsent hrun rfl hmore rfl hp rfl⟩

/-! ## Actions -/

section Actions

variable {h : Host} {steps : Nat} {data : ParserData}
  {after after' : List (Rule × List (BitVec 8)) → List (BitVec 8)}
  {ts out : List (Rule × List (BitVec 8))}

theorem actions_congr (hsame : ∀ us, us <:+ ts → after us = after' us) (data : ParserData) :
    actions h steps after ts data = actions h steps after' ts data := by
  induction ts generalizing data with
  | nil => rfl
  | cons t ts ih =>
    unfold actions
    rw [hsame _ (List.suffix_refl _)]
    refine congrArg (_ >>= ·) (funext fun data => ih (fun us hus => ?_) data)
    exact hsame us (hus.trans (List.suffix_cons t ts))

theorem actions_behind (behind : List (BitVec 8)) (out : List (Rule × List (BitVec 8)))
    (data : ParserData) :
    actions h steps (fun us => if us.length ≤ ts.length then after us else behind) (out ++ ts)
        data =
      out.foldlM (action h steps behind) data >>= actions h steps after ts := by
  induction out generalizing data with
  | nil =>
    refine actions_congr (fun us hus => if_pos ?_) data
    exact hus.length_le
  | cons t out ih =>
    have hlong : ¬ (t :: (out ++ ts)).length ≤ ts.length := by
      rw [List.length_cons, List.length_append]
      omega
    rw [List.cons_append, actions, if_neg hlong, List.foldlM_cons, bind_assoc]
    exact congrArg (_ >>= ·) (funext fun data => ih data)

/-- A loop that takes the steps of a scanner and runs the actions of its tokens. -/
structure RunsActions {σ : Type} (h : Host) (steps : Nat)
    (step : σ → Except Halt (Option (σ × List (Rule × List (BitVec 8)))))
    (loop : Nat → σ → ParserData → Except Halt ParserData) (behind : σ → List (BitVec 8)) :
    Prop where
  stop : ∀ s rounds data, step s = .ok none → loop (rounds + 1) s data = lift (handleError data)
  go : ∀ s s' out rounds data, step s = .ok (some (s', out)) → loop (rounds + 1) s data =
    out.foldlM (action h steps (behind s')) data >>= loop rounds s'

/-- The actions are run as `scanner.l` has them. An induction on what is left. -/
theorem RunsActions.advances {σ : Type} {s : σ}
    {step : σ → Except Halt (Option (σ × List (Rule × List (BitVec 8))))}
    {loop : Nat → σ → ParserData → Except Halt ParserData} {behind : σ → List (BitVec 8)}
    {Inv : σ → Prop} {f : σ → List (Rule × List (BitVec 8))} {lt : σ → σ → Prop}
    (hloop : RunsActions h steps step loop behind) (hwf : WellFounded lt)
    (hadv : ∀ s, Inv s → Advances step Inv f lt s) (hs : Inv s) :
    ∃ after n, ∀ rounds, n ≤ rounds → ∀ data, loop rounds s data =
      actions h steps after (f s) data >>= fun data => lift (handleError data) := by
  induction s using hwf.induction with
  | _ s ih =>
    rcases hadv s hs with ⟨hstop, hnone⟩ | ⟨s', out, hstep, hs', htokens, hlt⟩
    · refine ⟨fun _ => [], 1, fun rounds hle data => ?_⟩
      obtain ⟨k, rfl⟩ := Nat.exists_eq_add_of_le' hle
      rw [hloop.stop _ _ _ hstop, hnone]
      rfl
    · obtain ⟨after, n, hn⟩ := ih s' hlt hs'
      refine ⟨fun us => if us.length ≤ (f s').length then after us else behind s', n + 1,
        fun rounds hle data => ?_⟩
      obtain ⟨k, rfl⟩ := Nat.exists_eq_add_of_le' hle
      rw [← Nat.add_assoc, hloop.go _ _ _ _ _ hstep, htokens, actions_behind, bind_assoc]
      exact congrArg (_ >>= ·) (funext fun data => hn (k + n) (by omega) data)

theorem yylex_runsActions (h : Host) (steps : Nat) : RunsActions h steps Flex.step
    (fun rounds s => s.yylex h steps rounds) (fun s => s.guts.behind) where
  stop s rounds data hstop := by
    rw [Flex.yylex, hstop, ok_bind]
  go s s' out rounds data hstep := by
    rw [Flex.yylex, hstep, ok_bind]

end Actions

/-- **The scanner of the program**: over its buffer, filled by any sequence of reads, it does what
`yylex` does with the whole input, for some content of the buffer behind the texts. -/
theorem yylex_refines (h : Host) (steps : Nat) (reads : List (List (BitVec 8))) :
    ∃ after n, ∀ rounds, n ≤ rounds → ∀ data,
      (Flex.start reads).yylex h steps rounds data =
        yylex h steps after data (received reads) :=
  (yylex_runsActions h steps).advances leads_wf (fun _ => flex_advances) (ready_start reads)

end Armator.Sim
