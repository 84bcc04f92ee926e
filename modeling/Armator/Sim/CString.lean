import Armator.Lib.Block
import Armator.Lib.Hex
import Armator.Sim.Util

/-!
# The C library functions `gdb_protocol.c` calls

A `char *` is a `Pointer` into a block; the string there ends before the first NUL. The
functions follow the C standard. What the standard leaves open is in `Host`: the variables
a `sscanf` has not assigned, and the value of a number that does not fit its type.
-/

namespace Armator.Sim

open Lib

/-- A character constant. -/
def char (c : Char) : BitVec 8 := BitVec.ofNat 8 c.toNat

/-- A string literal without its NUL. -/
def text (s : String) : List (BitVec 8) := s.toList.map char

/-- The local variables of `gdb_protocol.c` that are read after a `sscanf` which may not
have assigned them. -/
inductive GdbLocal where
  /-- `given` of `gdb_packet_analysis` -/
  | analysisGiven
  /-- `value` of `read_uint32` -/
  | readValue
  /-- `address` of `read_memory` -/
  | readMemoryAddress
  /-- `size` of `read_memory` -/
  | readMemorySize
  /-- `value` of `read_memory` -/
  | readMemoryValue
  /-- `reg` of `write_single_register` -/
  | writeRegisterReg
  /-- `address` of `write_memory_binary` -/
  | writeMemoryAddress
  /-- `size` of `write_memory_binary` -/
  | writeMemorySize
  /-- `type` of `set_breakpoint` -/
  | setBreakpointType
  /-- `address` of `set_breakpoint` -/
  | setBreakpointAddress
  /-- `type` of `remove_breakpoint` -/
  | removeBreakpointType
  /-- `address` of `remove_breakpoint` -/
  | removeBreakpointAddress
  deriving DecidableEq, Repr

/-- What a run of the debug server depends on besides the C text. -/
structure Host where
  build : Build
  /-- The content of a local variable that has not been assigned. -/
  junk : GdbLocal → BitVec 32
  /-- What is stored for a number that does not fit in a type of the given width. -/
  overflow : Nat → Int → BitVec 32

/-- A host on the trapping build with zeros for all that is left open. -/
def Host.zeros : Host := ⟨.trapping false, fun _ => 0, fun _ _ => 0⟩

/-- The number `v` stored in an unsigned type of `w` bits. -/
def Host.fit (h : Host) (w : Nat) (v : Int) : BitVec w :=
  if ((BitVec.ofInt w v).toNat : Int) = v then BitVec.ofInt w v else (h.overflow w v).setWidth w

/-! ## Pointers -/

/-- A `char *` -/
structure Pointer where
  block : Block (BitVec 8)
  offset : Nat

namespace Pointer

/-- `NULL`, from which no access succeeds. -/
def null : Pointer := ⟨⟨[]⟩, 0⟩

/-- `p + n` -/
def add (p : Pointer) (n : Nat) : Pointer := ⟨p.block, p.offset + n⟩

/-- `*p` -/
def deref (p : Pointer) : Except Fault (BitVec 8) := p.block.load p.offset

/-- The characters from `p` to the end of the block. -/
def cells (p : Pointer) : List (BitVec 8) := p.block.cells.drop p.offset

/-- The string at `p`; reading it leaves the block if it has no NUL. -/
def string (p : Pointer) : Except Fault (List (BitVec 8)) :=
  if 0 ∈ p.cells then .ok (p.cells.takeWhile (· ≠ 0))
  else .error (.outOfBounds p.block.size p.block.size)

end Pointer

/-- `index(p, c)` -/
def index (p : Pointer) (c : BitVec 8) : Except Fault Pointer := do
  let s ← p.string
  match s.findIdx? (· = c) with
  | some i => .ok (p.add i)
  | none => .ok .null

/-! ## Numbers -/

/-- `isspace(c)` -/
def isSpace (c : BitVec 8) : Bool := c.toNat = 32 ∨ 9 ≤ c.toNat ∧ c.toNat ≤ 13

/-- An optional sign: whether it is a minus, and what follows. -/
def scanSign : List (BitVec 8) → Bool × List (BitVec 8)
  | [] => (false, [])
  | c :: s =>
    if c = char '-' then (true, s) else if c = char '+' then (false, s) else (false, c :: s)

/-- What follows an optional `0x`. -/
def skipPrefix : List (BitVec 8) → List (BitVec 8)
  | c :: x :: s => if c = char '0' ∧ (x = char 'x' ∨ x = char 'X') then s else c :: x :: s
  | s => s

/-- A conversion `%x` of at most `width` characters: the number and what follows it. -/
def scanHex (width : Option Nat) (s : List (BitVec 8)) : Option (Int × List (BitVec 8)) :=
  let s := s.dropWhile isSpace
  let n := width.getD s.length
  let item := scanSign (s.take n)
  let digits := (skipPrefix item.2).takeWhile isHex
  if digits = [] then none
  else
    some (if item.1 then -(hexVal digits : Int) else hexVal digits,
      (skipPrefix item.2).dropWhile isHex ++ s.drop n)

/-- The items of a `sscanf` format. -/
inductive Directive where
  | hex (width : Option Nat)
  | literal (c : BitVec 8)

/-- The numbers `sscanf` assigns, up to the first item that does not match. -/
def sscanf : List Directive → List (BitVec 8) → List Int
  | [], _ => []
  | .literal _ :: _, [] => []
  | .literal c :: ds, d :: s => if d = c then sscanf ds s else []
  | .hex width :: ds, s =>
    match scanHex width s with
    | none => []
    | some (v, s) => v :: sscanf ds s

/-- The variable `x` of `w` bits, given to `sscanf` as its `i`-th argument. -/
def Host.assigned (h : Host) (w : Nat) (values : List Int) (i : Nat) (x : GdbLocal) : BitVec w :=
  match values[i]? with
  | some v => h.fit w v
  | none => (h.junk x).setWidth w

def isDigit (c : BitVec 8) : Bool := 48 ≤ c.toNat ∧ c.toNat ≤ 57

/-- `atoi(s)` -/
def atoi (h : Host) (s : List (BitVec 8)) : Int :=
  let item := scanSign (s.dropWhile isSpace)
  let n : Nat := (item.2.takeWhile isDigit).foldl (fun n c => 10 * n + (c.toNat - 48)) 0
  let v : Int := if item.1 then -(n : Int) else n
  if (BitVec.ofInt 32 v).toInt = v then v else (h.overflow 32 v).toInt

section Strings

variable {p : Pointer} {a b s t : List (BitVec 8)} {c : BitVec 8}

theorem Pointer.cells_add (p : Pointer) (n : Nat) : (p.add n).cells = p.cells.drop n := by
  rw [cells, cells, List.drop_drop]
  rfl

theorem Pointer.deref_cons (h : p.cells = c :: s) : p.deref = .ok c := by
  have hget : p.block.cells[p.offset]? = some c := by
    rw [← List.head?_drop]
    exact congrArg List.head? h
  obtain ⟨hlt, hc⟩ := List.getElem?_eq_some_iff.mp hget
  rw [deref, Block.load_of_lt hlt, Block.get, List.getD_eq_getElem _ _ hlt, hc]

theorem Pointer.string_append (h : p.cells = s ++ t) (hs : 0 ∉ s) (ht : 0 ∈ t) :
    p.string = .ok (s ++ t.takeWhile (· ≠ 0)) := by
  have hne : ∀ c ∈ s, decide (c ≠ 0) = true := fun c hc =>
    decide_eq_true fun h0 => hs (h0 ▸ hc)
  rw [string, h, if_pos (List.mem_append_right s ht), List.takeWhile_append_of_pos hne]

theorem Pointer.string_eq (h : p.cells = s ++ 0 :: t) (hs : 0 ∉ s) : p.string = .ok s := by
  rw [string_append h hs List.mem_cons_self, List.takeWhile_cons_of_neg (by decide),
    List.append_nil]

theorem index_eq (h : p.string = .ok (a ++ c :: b)) (ha : c ∉ a) :
    index p c = .ok (p.add a.length) := by
  have hfind : (a ++ c :: b).findIdx? (· = c) = some a.length := by
    rw [List.findIdx?_eq_some_iff_getElem]
    refine ⟨by simp, by simp, fun j hj => ?_⟩
    rw [List.getElem_append_left hj]
    exact fun hc => ha (of_decide_eq_true hc ▸ List.getElem_mem hj)
  rw [index, h, ok_bind, hfind]

end Strings

/-! ## Reading digits -/

section Digits

variable {ds r : List (BitVec 8)} {c : BitVec 8}

/-- A number ends before `r`. -/
def Ends (r : List (BitVec 8)) : Prop :=
  ∀ c, r.head? = some c → isHex c = false ∧ c ≠ char 'x' ∧ c ≠ char 'X'

theorem ends_nil : Ends [] := fun _ h => nomatch h

theorem ends_cons (h : isHex c = false ∧ c ≠ char 'x' ∧ c ≠ char 'X') : Ends (c :: r) := by
  intro c' hc
  cases hc
  exact h

theorem dropWhile_space (hne : ds ≠ []) (h : ∀ c ∈ ds, isHex c = true) :
    (ds ++ r).dropWhile isSpace = ds ++ r := by
  cases ds with
  | nil => exact absurd rfl hne
  | cons c ds =>
    obtain ⟨hlo, -, -⟩ := hex_range (h c List.mem_cons_self)
    exact List.dropWhile_cons_of_neg (by unfold isSpace; rw [decide_eq_true_eq]; omega)

theorem scanSign_digits (hne : ds ≠ []) (h : ∀ c ∈ ds, isHex c = true) :
    scanSign (ds ++ r) = (false, ds ++ r) := by
  cases ds with
  | nil => exact absurd rfl hne
  | cons c ds =>
    obtain ⟨hlo, -, -⟩ := hex_range (h c List.mem_cons_self)
    have hminus : c ≠ char '-' := by rintro rfl; revert hlo; decide
    have hplus : c ≠ char '+' := by rintro rfl; revert hlo; decide
    rw [List.cons_append, scanSign, if_neg hminus, if_neg hplus]

theorem skipPrefix_digits (hne : ds ≠ []) (h : ∀ c ∈ ds, isHex c = true) (hr : Ends r) :
    skipPrefix (ds ++ r) = ds ++ r := by
  cases ds with
  | nil => exact absurd rfl hne
  | cons c ds =>
    have hx : ∀ x s, ds ++ r = x :: s → x ≠ char 'x' ∧ x ≠ char 'X' := by
      intro x s hs
      cases ds with
      | nil => exact (hr x (congrArg List.head? hs)).2
      | cons d ds =>
        obtain ⟨rfl, -⟩ := List.cons.inj hs
        have hd := h d (by simp)
        refine ⟨?_, ?_⟩
        all_goals
          rintro rfl
          cases hd
    rw [List.cons_append]
    cases hs : ds ++ r with
    | nil => rfl
    | cons x s =>
      obtain ⟨h1, h2⟩ := hx x s hs
      rw [skipPrefix, if_neg fun hc => hc.2.elim h1 h2]

theorem takeWhile_digits (h : ∀ c ∈ ds, isHex c = true) (hr : Ends r) :
    (ds ++ r).takeWhile isHex = ds ∧ (ds ++ r).dropWhile isHex = r := by
  rw [List.takeWhile_append_of_pos h, List.dropWhile_append_of_pos h]
  cases r with
  | nil => exact ⟨List.append_nil ds, rfl⟩
  | cons c r =>
    have hc : ¬ isHex c = true := by
      rw [(hr c rfl).1]
      exact Bool.false_ne_true
    rw [List.takeWhile_cons_of_neg hc, List.dropWhile_cons_of_neg hc, List.append_nil]
    exact ⟨rfl, rfl⟩

theorem scanHex_digits (hne : ds ≠ []) (h : ∀ c ∈ ds, isHex c = true) (hr : Ends r) :
    scanHex none (ds ++ r) = some ((hexVal ds : Int), r) := by
  unfold scanHex
  dsimp only
  rw [dropWhile_space hne h, Option.getD_none, List.take_length, scanSign_digits hne h]
  dsimp only
  rw [skipPrefix_digits hne h hr, (takeWhile_digits h hr).1, (takeWhile_digits h hr).2,
    if_neg hne, List.drop_length, List.append_nil]
  rfl

theorem scanHex_width (hne : ds ≠ []) (h : ∀ c ∈ ds, isHex c = true) (r : List (BitVec 8)) :
    scanHex (some ds.length) (ds ++ r) = some ((hexVal ds : Int), r) := by
  have hsign := scanSign_digits (r := []) hne h
  have hfirst := skipPrefix_digits hne h ends_nil
  have hdigits := takeWhile_digits h ends_nil
  rw [List.append_nil] at hsign hfirst hdigits
  unfold scanHex
  dsimp only
  rw [dropWhile_space hne h, Option.getD_some, List.take_left, hsign]
  dsimp only
  rw [hfirst, hdigits.1, hdigits.2, if_neg hne, List.drop_left, List.nil_append]
  rfl

theorem Host.fit_ofNat (h : Host) {w n : Nat} (hn : n < 2 ^ w) :
    h.fit w (n : Int) = BitVec.ofNat w n := by
  rw [fit, BitVec.ofInt_natCast, BitVec.toNat_ofNat, Nat.mod_eq_of_lt hn, if_pos rfl]

theorem Host.fit_toNat (h : Host) {w : Nat} (v : BitVec w) : h.fit w (v.toNat : Int) = v := by
  rw [h.fit_ofNat v.isLt, BitVec.ofNat_toNat, BitVec.setWidth_eq]

end Digits

end Armator.Sim
