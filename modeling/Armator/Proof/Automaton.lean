import Armator.Proof.Scanner
import Armator.Sim.Flex

/-!
# The automaton of the scanner

The tables of `scanner.c` hold an automaton in a compressed form. Its states say how far a text
is on its way to a token; the longest token at the front of the input is known as soon as the
automaton is stuck, and it is the one `scanner.l` asks for.
-/

namespace Armator.Sim

open Lib

/-! ## States -/

/-- How far a text is on its way to a token. -/
inductive Stage where
  | start
  | other
  | newline
  | dollar
  | ack
  | nack
  | payload
  | hash
  | digit
  | packet
  deriving DecidableEq, Repr

namespace Stage

/-- Its number in the tables. -/
def state : Stage → Nat
  | start => 1
  | other => 4
  | newline => 5
  | dollar => 6
  | ack => 7
  | nack => 8
  | payload => 9
  | hash => 10
  | digit => 11
  | packet => 12

/-- The rule that matches the text. -/
def rule : Stage → Option Rule
  | other => some .other
  | newline => some .dflt
  | dollar => some .other
  | ack => some .ack
  | nack => some .nack
  | packet => some .packet
  | start | payload | hash | digit => none

/-- The automaton is stuck, whatever follows. -/
def closed : Stage → Bool
  | other | newline | ack | nack | packet => true
  | start | dollar | payload | hash | digit => false

end Stage

/-- The class of a character that is not the end of the buffer. -/
def charClass (c : BitVec 8) : Nat :=
  if c = 0x0A then 2
  else if c = char '#' then 3
  else if c = char '$' then 4
  else if c = char '+' then 5
  else if c = char '-' then 6
  else if isHex c then 7
  else 1

/-- The transition for a character of a class. -/
def Stage.next : Stage → Nat → Option Stage
  | start, k =>
    if k = 2 then some newline else if k = 4 then some dollar else if k = 5 then some ack
    else if k = 6 then some nack else some other
  | dollar, k | payload, k =>
    if k = 3 then some hash else if k = 4 then none else some payload
  | hash, k => if k = 7 then some digit else none
  | digit, k => if k = 7 then some packet else none
  | other, _ | newline, _ | ack, _ | nack, _ | packet, _ => none

/-- The state of a transition; the automaton is stuck in state 13. -/
def stateOf : Option Stage → Nat
  | some t => t.state
  | none => 13

/-! ## Tables -/

section Tables

variable {t : Stage} {c : BitVec 8} {k : Nat}

theorem yyEc_load (c : BitVec 8) :
    yyEc.load c.toNat = .ok (if c = 0 then 0 else charClass c) := by
  revert c
  decide +kernel

theorem charClass_bounds (c : BitVec 8) : 0 < charClass c ∧ charClass c < 8 := by
  unfold charClass
  split_ifs <;> decide

theorem yyTransition_stage (t : Stage) (hk : 0 < k ∧ k < 8) :
    yyTransition 15 t.state k = .ok (stateOf (t.next k)) := by
  obtain ⟨h0, h8⟩ := hk
  interval_cases k <;> cases t <;> rfl

/-- At the end of the buffer every state goes to state 3. -/
theorem yyTransition_end (t : Stage) : yyTransition 15 t.state 0 = .ok 3 := by
  cases t <;> rfl

theorem yyTransition_three (hk : k < 8) : yyTransition 15 3 k = .ok 13 := by
  interval_cases k <;> rfl

theorem yyBase_state (t : Stage) :
    ∃ b, yyBase.load t.state = .ok b ∧ (b = 14 ↔ t.closed = true) := by
  cases t <;> exact ⟨_, rfl, by decide⟩

theorem yyAccept_state (t : Stage) :
    ∃ act, yyAccept.load t.state = .ok act ∧ yyRule act = t.rule ∧
      (act = 0 ↔ t.rule = none) ∧ act ≠ YY_END_OF_BUFFER := by
  cases t <;> exact ⟨_, rfl, by decide⟩

end Tables

/-! ## Texts -/

/-- Bytes that may stand between `$` and `#`. -/
def PlainText (s : List (BitVec 8)) : Prop := ∀ c ∈ s, c ≠ char '$' ∧ c ≠ char '#'

/-- The texts that bring the automaton to a state. -/
def Stage.Reads : Stage → List (BitVec 8) → Prop
  | start, u => u = []
  | other, u => ∃ c, u = [c] ∧ c ≠ char '$' ∧ c ≠ char '+' ∧ c ≠ char '-' ∧ c ≠ 0x0A
  | newline, u => u = [0x0A]
  | dollar, u => u = [char '$']
  | ack, u => u = [char '+']
  | nack, u => u = [char '-']
  | payload, u => ∃ s, s ≠ [] ∧ PlainText s ∧ u = char '$' :: s
  | hash, u => ∃ s, PlainText s ∧ u = char '$' :: (s ++ [char '#'])
  | digit, u => ∃ s x, PlainText s ∧ isHex x = true ∧ u = char '$' :: (s ++ [char '#', x])
  | packet, u => IsPacket u

section Texts

variable {t t' : Stage} {c x : BitVec 8} {s u rest : List (BitVec 8)}

theorem plainText_append (hs : PlainText s) (h3 : charClass c ≠ 3) (h4 : charClass c ≠ 4) :
    PlainText (s ++ [c]) := by
  intro d hd
  rcases List.mem_append.1 hd with hd | hd
  · exact hs d hd
  · obtain rfl := List.mem_singleton.1 hd
    constructor
    · rintro rfl
      exact h4 rfl
    · rintro rfl
      exact h3 rfl

theorem eq_hash (h : charClass c = 3) : c = char '#' := by
  unfold charClass at h
  split_ifs at h
  all_goals first | assumption | cases h

theorem eq_dollar (h : charClass c = 4) : c = char '$' := by
  unfold charClass at h
  split_ifs at h
  all_goals first | assumption | cases h

theorem isHex_of_class (h : charClass c = 7) : isHex c = true := by
  unfold charClass at h
  split_ifs at h
  all_goals first | assumption | cases h

theorem class_of_isHex (h : isHex c = true) : charClass c = 7 := by
  revert c
  decide +kernel

theorem reads_start (h : Stage.start.next (charClass c) = some t) : t.Reads [c] := by
  unfold charClass at h
  split_ifs at h with hline hhash hdollar hplus hminus hhex <;> cases h
  · exact congrArg (fun d => [d]) hline
  · subst hhash
    exact ⟨char '#', rfl, by decide, by decide, by decide, by decide⟩
  · exact congrArg (fun d => [d]) hdollar
  · exact congrArg (fun d => [d]) hplus
  · exact congrArg (fun d => [d]) hminus
  · exact ⟨c, rfl, hdollar, hplus, hminus, hline⟩
  · exact ⟨c, rfl, hdollar, hplus, hminus, hline⟩

@[simp] theorem next_start (k : Nat) : Stage.start.next k =
    if k = 2 then some .newline else if k = 4 then some .dollar else if k = 5 then some .ack
    else if k = 6 then some .nack else some .other := rfl

@[simp] theorem next_payload (k : Nat) : Stage.payload.next k =
    if k = 3 then some .hash else if k = 4 then none else some .payload := rfl

@[simp] theorem next_dollar (k : Nat) : Stage.dollar.next k = Stage.payload.next k := rfl

@[simp] theorem next_hash (k : Nat) :
    Stage.hash.next k = if k = 7 then some .digit else none := rfl

@[simp] theorem next_digit (k : Nat) :
    Stage.digit.next k = if k = 7 then some .packet else none := rfl

theorem reads_payload (hs : PlainText s) (h : Stage.payload.next (charClass c) = some t) :
    t.Reads (char '$' :: s ++ [c]) := by
  rw [next_payload] at h
  split_ifs at h with h3 h4 <;> cases h
  · obtain rfl := eq_hash h3
    exact ⟨s, hs, rfl⟩
  · exact ⟨s ++ [c], by simp, plainText_append hs h3 h4, rfl⟩

theorem reads_next (hu : t.Reads u) (h : t.next (charClass c) = some t') :
    t'.Reads (u ++ [c]) := by
  cases t with
  | start =>
    obtain rfl : u = [] := hu
    exact reads_start h
  | dollar =>
    obtain rfl : u = [char '$'] := hu
    exact reads_payload (s := []) nofun h
  | payload =>
    obtain ⟨s, -, hs, rfl⟩ := hu
    exact reads_payload hs h
  | hash =>
    obtain ⟨s, hs, rfl⟩ := hu
    rw [next_hash] at h
    split_ifs at h with h7
    cases h
    exact ⟨s, c, hs, isHex_of_class h7, by simp⟩
  | digit =>
    obtain ⟨s, x, hs, hx, rfl⟩ := hu
    rw [next_digit] at h
    split_ifs at h with h7
    cases h
    exact ⟨s, x, c, by simp, hs, hx, isHex_of_class h7⟩
  | other | newline | ack | nack | packet => cases h

/-! ## Tokens -/

/-- A packet stands at the front. -/
def Opens (s : List (BitVec 8)) : Prop := ∃ p, IsPacket p ∧ p <+: s

theorem Opens.dropWhile (h : Opens (char '$' :: s)) :
    ∃ x y r, s.dropWhile isPlain = char '#' :: x :: y :: r ∧ isHex x = true ∧ isHex y = true := by
  obtain ⟨p, ⟨payload, x, y, rfl, hplain, hx, hy⟩, r, hr⟩ := h
  rw [List.cons_append, List.append_assoc] at hr
  obtain rfl := (List.cons.inj hr).2
  exact ⟨x, y, r, dropWhile_plain hplain _, hx, hy⟩

/-- What follows, if anything, does not go on with the text. -/
def Stage.Stuck (t : Stage) (rest : List (BitVec 8)) : Prop :=
  ∀ c r, rest = c :: r → t.next (charClass c) = none

theorem dropWhile_payload (hs : PlainText s) (h : Stage.payload.Stuck rest) :
    ∀ r, (s ++ rest).dropWhile isPlain ≠ char '#' :: r := by
  intro r hr
  rw [List.dropWhile_append_of_pos fun c hc => isPlain_iff.2 (hs c hc)] at hr
  cases rest with
  | nil => cases hr
  | cons c rest =>
    have hnone := h c rest rfl
    rw [next_payload] at hnone
    split_ifs at hnone with h3 h4
    obtain rfl := eq_dollar h4
    cases hr

/-- Half a packet that does not go on is none. -/
theorem not_opens (hu : t.Reads u) (hne : u ≠ []) (ht : t.closed = false) (h : t.Stuck rest) :
    ¬ Opens (u ++ rest) := by
  intro hopens
  cases t with
  | dollar =>
    obtain rfl : u = [char '$'] := hu
    obtain ⟨x, y, r, hr, -, -⟩ := hopens.dropWhile
    exact dropWhile_payload (s := []) nofun h _ hr
  | payload =>
    obtain ⟨s, -, hs, rfl⟩ := hu
    obtain ⟨x, y, r, hr, -, -⟩ := hopens.dropWhile
    exact dropWhile_payload hs h _ hr
  | hash =>
    obtain ⟨s, hs, rfl⟩ := hu
    rw [List.cons_append, List.append_assoc] at hopens
    obtain ⟨x, y, r, hr, hx, -⟩ := hopens.dropWhile
    rw [List.singleton_append, dropWhile_plain hs] at hr
    have hnone := h x (y :: r) (List.cons.inj hr).2
    rw [next_hash, class_of_isHex hx] at hnone
    cases hnone
  | digit =>
    obtain ⟨s, d, hs, hd, rfl⟩ := hu
    rw [List.cons_append, List.append_assoc] at hopens
    obtain ⟨x, y, r, hr, -, hy⟩ := hopens.dropWhile
    rw [List.cons_append, dropWhile_plain hs] at hr
    have hnone := h y r (List.cons.inj (List.cons.inj hr).2).2
    rw [next_digit, class_of_isHex hy] at hnone
    cases hnone
  | start => exact hne hu
  | other | newline | ack | nack | packet => cases ht

theorem tokens_dollar (h : ¬ Opens (char '$' :: s)) :
    scanner.tokens (char '$' :: s) = (.other, [char '$']) :: scanner.tokens s := by
  have hlong (m : Nat) (hm : 1 < m) (hle : m ≤ (char '$' :: s).length) :
      scanner.accepts ((char '$' :: s).take m) = false := by
    have hlen : ((char '$' :: s).take m).length = m := List.length_take_of_le hle
    rw [accepts_of_length (by omega), Bool.eq_false_iff]
    exact fun hp => h ⟨_, isPacket_iff.1 hp, List.take_prefix _ _⟩
  have hlength : scanner.tokenLength (char '$' :: s) = 1 := by
    have hle := Lexer.longest_le (L := scanner) (char '$' :: s) 1
    unfold Lexer.tokenLength
    rw [Lexer.longest_of_le (k := 1) (by simp) hlong]
    omega
  rw [Lexer.tokens_cons, hlength]
  rfl

theorem tokens_single (hc : c ≠ char '$') (rest : List (BitVec 8)) :
    scanner.tokens (c :: rest) = (scanner.rule [c], [c]) :: scanner.tokens rest := by
  have hone : scanner.tokens [c] = [(scanner.rule [c], [c])] := by
    have hle := Lexer.tokenLength_le (L := scanner) (List.cons_ne_nil c [])
    have hpos : 1 ≤ scanner.tokenLength [c] := Nat.le_max_left ..
    have hlength : scanner.tokenLength [c] = 1 := Nat.le_antisymm hle hpos
    rw [Lexer.tokens_cons, hlength, List.take_of_length_le (by simp),
      List.drop_of_length_le (by simp), Lexer.tokens_nil]
  rw [← List.singleton_append, Lexer.tokens_append (separate_single hc rest), hone]
  rfl

theorem tokens_closed {r : Rule} (hu : t.Reads u) (hc : t.closed = true) (hr : t.rule = some r)
    (rest : List (BitVec 8)) : scanner.tokens (u ++ rest) = (r, u) :: scanner.tokens rest := by
  cases t with
  | other =>
    obtain ⟨c, rfl, hdollar, hplus, hminus, hline⟩ := hu
    cases hr
    have hrule : scanner.rule [c] = .other := by
      have hother : c ≠ 10#8 := hline
      simp [Lexer.rule, scanner, Rule.word, isPacket, hplus, hminus, hother]
    rw [List.singleton_append, tokens_single hdollar, hrule]
  | newline =>
    obtain rfl : u = [0x0A] := hu
    cases hr
    exact tokens_single (by decide) rest
  | ack =>
    obtain rfl : u = [char '+'] := hu
    cases hr
    exact tokens_single (by decide) rest
  | nack =>
    obtain rfl : u = [char '-'] := hu
    cases hr
    exact tokens_single (by decide) rest
  | packet =>
    cases hr
    rw [Lexer.tokens_append (separate_packet hu rest), tokens_packet hu]
    rfl
  | start | dollar | payload | hash | digit => cases hc

theorem reads_cons (hu : t.Reads u) (hne : u ≠ []) (ht : t.closed = false) :
    ∃ v, u = char '$' :: v := by
  cases t with
  | start => exact absurd hu hne
  | dollar => exact ⟨[], hu⟩
  | payload =>
    obtain ⟨s, -, -, rfl⟩ := hu
    exact ⟨s, rfl⟩
  | hash =>
    obtain ⟨s, -, rfl⟩ := hu
    exact ⟨_, rfl⟩
  | digit =>
    obtain ⟨s, x, -, -, rfl⟩ := hu
    exact ⟨_, rfl⟩
  | other | newline | ack | nack | packet => cases ht

/-! ## Walks -/

/-- The automaton comes to a state over a text. -/
inductive Stage.Walks : Stage → List (BitVec 8) → Prop where
  | nil : Walks start []
  | snoc {t t' : Stage} {u : List (BitVec 8)} {c : BitVec 8} : Walks t u →
      t.next (charClass c) = some t' → Walks t' (u ++ [c])

theorem Stage.Walks.reads (hw : t.Walks u) : t.Reads u := by
  induction hw with
  | nil => exact (rfl : ([] : List (BitVec 8)) = [])
  | snoc _ hnext ih => exact reads_next ih hnext

theorem Stage.Walks.eq_start (hw : t.Walks u) (hu : u = []) : t = .start := by
  cases hw with
  | nil => rfl
  | snoc => exact absurd hu (by simp)

theorem Stage.Walks.ne_nil {k : Nat} (hw : t.Walks u) (hnext : t.next k = none) : u ≠ [] := by
  intro hu
  obtain rfl := hw.eq_start hu
  rw [next_start] at hnext
  split_ifs at hnext

theorem Stage.Walks.nul (hw : t.Walks u) (hnext : t.next (charClass 0) = some t')
    (ht : t'.closed = true) : u = [] := by
  cases t with
  | start => exact hw.reads
  | dollar | payload =>
    cases hnext
    cases ht
  | other | newline | ack | nack | hash | digit | packet => cases hnext

theorem stuck_of_closed (ht : t.closed = true) : t.Stuck rest := by
  intro c r _
  cases t with
  | start | dollar | payload | hash | digit => cases ht
  | other | newline | ack | nack | packet => rfl

/-- The automaton is stuck in a text that a rule matches. -/
theorem tokens_matched {r : Rule} (hw : t.Walks u) (h : t.Stuck rest) (hr : t.rule = some r) :
    scanner.tokens (u ++ rest) = (r, u) :: scanner.tokens rest := by
  by_cases hc : t.closed = true
  · exact tokens_closed hw.reads hc hr rest
  · cases t with
    | dollar =>
      obtain rfl : u = [char '$'] := hw.reads
      cases hr
      exact tokens_dollar (not_opens hw.reads (List.cons_ne_nil _ _) rfl h)
    | start | payload | hash | digit => cases hr
    | other | newline | ack | nack | packet => exact absurd rfl hc

theorem open_of_unmatched (hr : t.rule = none) : t.closed = false := by
  cases t with
  | start | payload | hash | digit => rfl
  | dollar | other | newline | ack | nack | packet => cases hr

/-- The automaton is stuck in a text that no rule matches. -/
theorem tokens_unmatched (hw : t.Walks u) (hne : u ≠ []) (h : t.Stuck rest)
    (hr : t.rule = none) : ∃ v, u = char '$' :: v ∧
      scanner.tokens (u ++ rest) = (.other, [char '$']) :: scanner.tokens (v ++ rest) := by
  have hopen := open_of_unmatched hr
  obtain ⟨v, rfl⟩ := reads_cons hw.reads hne hopen
  exact ⟨v, rfl, tokens_dollar (not_opens hw.reads hne hopen h)⟩

theorem Stage.Walks.completes (hw : t.Walks u) (hne : u ≠ []) (ht : t.closed = false) :
    ∃ v, v ≠ [] ∧ IsPacket (u ++ v) := by
  have hpacket (s : List (BitVec 8)) (x y : BitVec 8) (hs : PlainText s) (hx : isHex x = true)
      (hy : isHex y = true) : IsPacket (char '$' :: (s ++ [char '#', x, y])) :=
    ⟨s, x, y, rfl, hs, hx, hy⟩
  have hread := hw.reads
  cases t with
  | start => exact absurd hread hne
  | dollar =>
    obtain rfl : u = [char '$'] := hread
    exact ⟨_, List.cons_ne_nil _ _, hpacket [] (char '0') (char '0') nofun rfl rfl⟩
  | payload =>
    obtain ⟨s, -, hs, rfl⟩ := hread
    exact ⟨_, List.cons_ne_nil _ _, hpacket s (char '0') (char '0') hs rfl rfl⟩
  | hash =>
    obtain ⟨s, hs, rfl⟩ := hread
    refine ⟨[char '0', char '0'], List.cons_ne_nil _ _, ?_⟩
    rw [List.cons_append, List.append_assoc]
    exact hpacket s (char '0') (char '0') hs rfl rfl
  | digit =>
    obtain ⟨s, x, hs, hx, rfl⟩ := hread
    refine ⟨[char '0'], List.cons_ne_nil _ _, ?_⟩
    rw [List.cons_append, List.append_assoc]
    exact hpacket s x (char '0') hs hx rfl
  | other | newline | ack | nack | packet => cases ht

end Texts

end Armator.Sim
