import Mathlib.Data.List.Basic

/-!
# Longest-match lexers

A lexer cuts its input into tokens: the longest prefix that a rule matches, for the first
such rule, or else a single symbol, for the default rule. A token sees nothing but its
text, so input may be cut anywhere no match reaches across (`Separate`).
-/

namespace Armator.Lib

structure Lexer (ρ α : Type) where
  rules : List ρ
  word : ρ → List α → Bool
  default : ρ

namespace Lexer

variable {ρ α : Type} (L : Lexer ρ α)

/-- Some rule matches the whole of `s`. -/
def accepts (s : List α) : Bool := L.rules.any (L.word · s)

/-- The length of the longest match among the first `n` symbols, 0 if there is none. -/
def longest (s : List α) : Nat → Nat
  | 0 => 0
  | n + 1 => if L.accepts (s.take (n + 1)) then n + 1 else longest s n

/-- The length of the first token. -/
def tokenLength (s : List α) : Nat := max 1 (L.longest s s.length)

/-- The rule for a text. -/
def rule (s : List α) : ρ := (L.rules.find? (L.word · s)).getD L.default

/-- The tokens of an input with their rules. -/
def tokens (s : List α) : List (ρ × List α) :=
  match s with
  | [] => []
  | a :: s =>
    let n := L.tokenLength (a :: s)
    (L.rule ((a :: s).take n), (a :: s).take n) :: tokens ((a :: s).drop n)
termination_by s.length
decreasing_by
  rw [List.length_drop, List.length_cons]
  have : 1 ≤ L.tokenLength (a :: s) := Nat.le_max_left ..
  omega

section Longest

variable {L} {s t : List α} {n k : Nat}

theorem longest_le (s : List α) (n : Nat) : L.longest s n ≤ n := by
  induction n with
  | zero => exact Nat.le_refl 0
  | succ n ih =>
    unfold longest
    split
    · exact Nat.le_refl _
    · omega

theorem longest_congr (h : ∀ m ≤ n, L.accepts (s.take m) = L.accepts (t.take m)) :
    L.longest s n = L.longest t n := by
  induction n with
  | zero => rfl
  | succ n ih =>
    unfold longest
    rw [h (n + 1) (Nat.le_refl _), ih fun m hm => h m (by omega)]

theorem longest_of_le (hk : k ≤ n) (h : ∀ m, k < m → m ≤ n → L.accepts (s.take m) = false) :
    L.longest s n = L.longest s k := by
  induction n with
  | zero => rw [Nat.le_zero.mp hk]
  | succ n ih =>
    rcases Nat.lt_or_eq_of_le hk with hlt | rfl
    · have hn := h (n + 1) hlt (Nat.le_refl _)
      rw [longest, hn, if_neg Bool.false_ne_true]
      exact ih (Nat.le_of_lt_succ hlt) fun m hm hmn => h m hm (by omega)
    · rfl

theorem longest_of_accepts (hs : L.accepts s = true) : L.longest s s.length = s.length := by
  cases s with
  | nil => rfl
  | cons a s =>
    rw [List.length_cons, longest, ← List.length_cons (a := a), List.take_length, if_pos hs]

end Longest

/-- No rule matches across the end of `w`. -/
def Separate (w s : List α) : Prop :=
  ∀ u v, u <:+ w → u ≠ [] → v <+: s → v ≠ [] → L.accepts (u ++ v) = false

section Tokens

variable {L} {w s : List α}

theorem tokens_cons {a : α} : L.tokens (a :: s) =
    (L.rule ((a :: s).take (L.tokenLength (a :: s))), (a :: s).take (L.tokenLength (a :: s))) ::
      L.tokens ((a :: s).drop (L.tokenLength (a :: s))) := by
  rw [tokens]

theorem tokens_nil : L.tokens [] = [] := by rw [tokens]

theorem Separate.drop (h : L.Separate w s) (n : Nat) : L.Separate (w.drop n) s :=
  fun u v hu => h u v (hu.trans (List.drop_suffix n w))

theorem Separate.tokenLength (h : L.Separate w s) (hw : w ≠ []) :
    L.tokenLength (w ++ s) = L.tokenLength w := by
  unfold Lexer.tokenLength
  have hcut : L.longest (w ++ s) (w ++ s).length = L.longest (w ++ s) w.length := by
    refine longest_of_le (by simp) fun m hm hle => ?_
    rw [List.length_append] at hle
    rw [List.take_append, List.take_of_length_le (by omega)]
    refine h w _ (List.suffix_refl w) hw (List.take_prefix _ s) fun hnil => ?_
    have hlen := congrArg List.length hnil
    rw [List.length_take, List.length_nil] at hlen
    omega
  have hsame : L.longest (w ++ s) w.length = L.longest w w.length := by
    refine longest_congr fun m hm => ?_
    rw [List.take_append_of_le_length hm]
  rw [hcut, hsame]

theorem tokenLength_le (hw : w ≠ []) : L.tokenLength w ≤ w.length := by
  have h := longest_le (L := L) w w.length
  have hpos := List.length_pos_iff.mpr hw
  unfold tokenLength
  omega

/-- **Resynchronisation**: where no match reaches across, the tokens of the two parts are
the tokens of the whole. An induction on the length of the first part. -/
theorem tokens_append (h : L.Separate w s) : L.tokens (w ++ s) = L.tokens w ++ L.tokens s := by
  obtain ⟨n, hn⟩ : ∃ n, n = w.length := ⟨_, rfl⟩
  induction n using Nat.strongRecOn generalizing w with
  | ind n ih =>
    cases w with
    | nil => rw [List.nil_append, tokens_nil, List.nil_append]
    | cons a w =>
      have hne : a :: w ≠ [] := List.cons_ne_nil a w
      have hle := tokenLength_le (L := L) hne
      have hlen := h.tokenLength hne
      have h1 : 1 ≤ L.tokenLength (a :: w) := Nat.le_max_left ..
      rw [List.cons_append] at hlen ⊢
      rw [tokens_cons, tokens_cons, hlen, ← List.cons_append, List.take_append_of_le_length hle,
        List.drop_append_of_le_length hle, List.cons_append,
        ih _ (by rw [hn, List.length_drop]; omega) (h.drop _) rfl]

theorem tokens_of_accepts (hs : s ≠ []) (h : L.accepts s = true) :
    L.tokens s = [(L.rule s, s)] := by
  have hlen : L.tokenLength s = s.length := by
    have hpos := List.length_pos_iff.mpr hs
    rw [tokenLength, longest_of_accepts h]
    omega
  cases s with
  | nil => exact absurd rfl hs
  | cons a s => rw [tokens_cons, hlen, List.take_length, List.drop_length, tokens_nil]

/-- The tokens are the whole input. An induction on the length of what is left. -/
theorem flatMap_tokens (s : List α) : (L.tokens s).flatMap Prod.snd = s := by
  obtain ⟨n, hn⟩ : ∃ n, n = s.length := ⟨_, rfl⟩
  induction n using Nat.strongRecOn generalizing s with
  | ind n ih =>
    cases s with
    | nil => rw [tokens_nil, List.flatMap_nil]
    | cons a s =>
      have hpos : 1 ≤ L.tokenLength (a :: s) := Nat.le_max_left ..
      rw [tokens_cons, List.flatMap_cons, ih _ _ _ rfl, List.take_append_drop]
      rw [hn, List.length_drop, List.length_cons]
      omega

/-- The rule of a token matches its text. An induction on the length of what is left. -/
theorem word_of_mem_tokens {t : ρ × List α} (ht : t ∈ L.tokens s) (hd : t.1 ≠ L.default) :
    L.word t.1 t.2 = true := by
  obtain ⟨n, hn⟩ : ∃ n, n = s.length := ⟨_, rfl⟩
  induction n using Nat.strongRecOn generalizing s with
  | ind n ih =>
    cases s with
    | nil =>
      rw [tokens_nil] at ht
      cases ht
    | cons a s =>
      rw [tokens_cons] at ht
      rcases List.mem_cons.1 ht with rfl | ht
      · generalize (a :: s).take (L.tokenLength (a :: s)) = w at hd ⊢
        cases hf : L.rules.find? (L.word · w) with
        | none => exact absurd (by rw [rule, hf, Option.getD_none]) hd
        | some r =>
          have hr : L.rule w = r := by rw [rule, hf, Option.getD_some]
          have hword := List.find?_some (p := fun r => L.word r w) hf
          change L.word (L.rule w) w = true
          rw [hr]
          exact hword
      · refine ih _ ?_ ht rfl
        have hpos : 1 ≤ L.tokenLength (a :: s) := Nat.le_max_left ..
        rw [hn, List.length_drop, List.length_cons]
        omega

end Tokens

end Lexer

end Armator.Lib
