import Armator.Lib.Watched
import Armator.Proof.Server

/-!
# A watched server

`Host.watching` reads the payload of a packet like the C program, but stops where a handler
looks behind it, goes on with the `NULL` of `index` or uses a variable no `sscanf` assigned.
A request is decoded safely if the watch never stops it and no assertion fails. What is then
done depends on the payload alone: not on what lies behind it, nor on what the variables held.
-/

namespace Armator.Sim

open Lib

/-! ## The watch -/

/-- How a watched handler does not return. -/
inductive Misuse where
  /-- `index` found nothing, and its result was used. -/
  | null
  | unassigned (x : GdbLocal)
  /-- A character behind the payload was asked for. -/
  | beyond
  | halt (e : Halt)
  deriving DecidableEq

namespace Misuse

/-- The target faults or runs on; this has nothing to do with decoding. -/
def OfTarget : Misuse → Prop
  | halt (.fault _) => True
  | halt .running => True
  | _ => False

/-- What the C program makes of it. -/
def plain : Misuse → Option Halt
  | halt e => some e
  | _ => none

end Misuse

/-- The string in a payload from a position on: a NUL follows the payload. -/
def stringAt (s : List (BitVec 8)) (p : Nat) : List (BitVec 8) := (s.drop p).takeWhile (· ≠ 0)

/-- A pointer is a position in the payload `s`; the NUL behind it ends strings but is not
data. -/
def Host.watching (h : Host) (s : List (BitVec 8)) : Reading Nat Misuse where
  add := fun p n => p + n
  string := fun p => if p ≤ s.length then .ok (stringAt s p) else .error .beyond
  deref := fun p =>
    match s[p]? with
    | some c => .ok c
    | none => .error .beyond
  index := fun p c =>
    if p ≤ s.length then
      match (stringAt s p).findIdx? (· = c) with
      | some i => .ok (p + i)
      | none => .error .null
    else .error .beyond
  assigned := fun w values i x =>
    match values[i]? with
    | some v => .ok (h.fit w v)
    | none => .error (.unassigned x)
  halt := .halt

/-- The request with the payload `c :: s` is decoded without misuse. -/
def DecodesSafely (h : Host) (steps : Nat) (g : Gdb) (c : BitVec 8) (s : List (BitVec 8)) :
    Prop :=
  Errs ((h.watching s).serve h steps g c 0) Misuse.OfTarget

/-! ## The watch follows the program -/

/-- The same host with other variables. -/
def Host.withJunk (h : Host) (junk : GdbLocal → BitVec 32) : Host := { h with junk := junk }

section Follow

variable {α β : Type} {h : Host} {junk : GdbLocal → BitVec 32} {steps : Nat} {g : Gdb}
  {s rest : List (BitVec 8)} {data : Pointer}

theorem cells_at (hcells : data.cells = s ++ 0 :: rest) {p : Nat} (hp : p ≤ s.length) :
    (data.add p).cells = s.drop p ++ 0 :: rest := by
  rw [Pointer.cells_add, hcells, List.drop_append_of_le_length hp]

theorem string_at (hcells : data.cells = s ++ 0 :: rest) {p : Nat} (hp : p ≤ s.length) :
    (data.add p).string = .ok (stringAt s p) := by
  rw [Pointer.string, cells_at hcells hp, if_pos (by simp), List.takeWhile_append]
  unfold stringAt
  split
  · rename_i hlen
    rw [List.takeWhile_cons_of_neg (by decide), List.append_nil,
      (List.takeWhile_prefix _).eq_of_length hlen]
  · rfl

/-- One outcome, unless the watch stops the first. -/
abbrev Follows (x : Except Misuse α) (y : Except Halt α) : Prop := Watched Misuse.plain Eq x y

theorem follows_ok (a : α) : Follows (.ok a) (.ok a) := watched_ok rfl

theorem follows_bind {x : Except Misuse α} {y : Except Halt α} {f : α → Except Misuse β}
    {f' : α → Except Halt β} (hxy : Follows x y) (hf : ∀ a, Follows (f a) (f' a)) :
    Follows (x >>= f) (y >>= f') :=
  hxy.bind fun a b hab => by
    subst hab
    exact hf a

theorem add_add (data : Pointer) (p n : Nat) : (data.add p).add n = data.add (p + n) := by
  unfold Pointer.add
  rw [Nat.add_assoc]

theorem follows_string (hcells : data.cells = s ++ 0 :: rest) (p : Nat) :
    Follows ((h.watching s).string p)
      ((h.withJunk junk).reading.string (data.add p)) := by
  unfold Host.watching Host.reading
  dsimp only
  by_cases hp : p ≤ s.length
  · rw [if_pos hp, string_at hcells hp]
    exact watched_ok rfl
  · rw [if_neg hp]
    exact watched_stop rfl

theorem follows_deref (hcells : data.cells = s ++ 0 :: rest) (p : Nat) :
    Follows ((h.watching s).deref p)
      ((h.withJunk junk).reading.deref (data.add p)) := by
  unfold Host.watching Host.reading
  dsimp only
  cases hs : s[p]? with
  | none => exact watched_stop rfl
  | some c =>
    obtain ⟨hp, hc⟩ := List.getElem?_eq_some_iff.mp hs
    have hat := cells_at hcells (Nat.le_of_lt hp)
    rw [List.drop_eq_getElem_cons hp, hc] at hat
    rw [Pointer.deref_cons hat]
    exact watched_ok rfl

theorem follows_index (hcells : data.cells = s ++ 0 :: rest) (p : Nat) (c : BitVec 8) :
    Watched Misuse.plain (fun q p => p = data.add q) ((h.watching s).index p c)
      ((h.withJunk junk).reading.index (data.add p) c) := by
  unfold Host.watching Host.reading Sim.index
  dsimp only
  by_cases hp : p ≤ s.length
  · rw [if_pos hp, string_at hcells hp, ok_bind]
    cases (stringAt s p).findIdx? (· = c) with
    | none => exact watched_stop rfl
    | some i =>
      exact watched_ok (add_add data p i)
  · rw [if_neg hp]
    exact watched_stop rfl

theorem follows_assigned (w : Nat) (values : List Int) (i : Nat) (x : GdbLocal) :
    Follows ((h.watching s).assigned w values i x)
      ((h.withJunk junk).reading.assigned w values i x) := by
  unfold Host.watching Host.reading Host.assigned
  dsimp only
  cases values[i]? with
  | none => exact watched_stop rfl
  | some v => exact watched_ok rfl

theorem follows_target (x : Except Halt α) :
    Follows ((h.watching s).target x)
      ((h.withJunk junk).reading.target x) := by
  cases x with
  | ok a => exact watched_ok rfl
  | error e => exact watched_error rfl

theorem follows_cont :
    Follows ((h.watching s).cont h steps g) ((h.withJunk junk).reading.cont h steps g) :=
  follows_bind (follows_target _) fun _ => follows_ok _

theorem follows_step : Follows ((h.watching s).step h g) ((h.withJunk junk).reading.step h g) :=
  follows_bind (follows_target _) fun _ => follows_ok _

theorem follows_query (hcells : data.cells = s ++ 0 :: rest) :
    Follows ((h.watching s).query g 0) ((h.withJunk junk).reading.query g data) :=
  follows_bind (follows_string hcells 0) fun _ => follows_ok _

theorem follows_readMemory (hcells : data.cells = s ++ 0 :: rest) :
    Follows ((h.watching s).readMemory g 0) ((h.withJunk junk).reading.readMemory g data) := by
  refine follows_bind (follows_string hcells 0) fun t => ?_
  refine follows_bind (follows_assigned _ _ _ _) fun address => ?_
  refine watched_ite (fun _ => ?_) fun _ => follows_ok _
  exact follows_bind (follows_assigned _ _ _ _) fun size => follows_ok _

theorem follows_readSingleRegister (hcells : data.cells = s ++ 0 :: rest) :
    Follows ((h.watching s).readSingleRegister h g 0)
      ((h.withJunk junk).reading.readSingleRegister h g data) := by
  refine follows_bind (follows_string hcells 0) fun t => ?_
  refine watched_ite (fun _ => ?_) fun _ => watched_error rfl
  exact follows_bind (follows_target _) fun value => follows_ok _

theorem follows_setThread (hcells : data.cells = s ++ 0 :: rest) :
    Follows ((h.watching s).setThread h g 0)
      ((h.withJunk junk).reading.setThread h g data) := by
  refine follows_bind (follows_deref hcells 0) fun type => ?_
  refine follows_bind (follows_string hcells 1) fun t => ?_
  exact watched_ite (fun _ => follows_ok _) fun _ => follows_ok _

theorem follows_readUint32 (hcells : data.cells = s ++ 0 :: rest) (p : Nat) :
    Follows ((h.watching s).readUint32 p) ((h.withJunk junk).reading.readUint32 (data.add p)) :=
  follows_bind (follows_string hcells p) fun _ => follows_assigned _ _ _ _

theorem follows_writeRegister (hcells : data.cells = s ++ 0 :: rest) (reg : BitVec 32) (p : Nat) :
    Follows ((h.watching s).writeRegister g reg p)
      ((h.withJunk junk).reading.writeRegister g reg (data.add p)) := by
  refine follows_bind (follows_readUint32 hcells p) fun value => ?_
  exact watched_ite (fun _ => follows_target _) fun _ => watched_error rfl

/-- An induction on the registers that are left. -/
theorem follows_writeWords (hcells : data.cells = s ++ 0 :: rest) (is : List Nat) (p : Nat) :
    Watched Misuse.plain (fun x y => x.1 = y.1 ∧ y.2 = data.add x.2)
      ((h.watching s).writeWords is g p)
      ((h.withJunk junk).reading.writeWords is g (data.add p)) := by
  induction is generalizing g p with
  | nil => exact watched_ok ⟨rfl, rfl⟩
  | cons i is ih =>
    unfold Reading.writeWords
    rw [List.foldlM_cons, List.foldlM_cons, bind_assoc, bind_assoc]
    refine (follows_writeRegister hcells _ p).bind fun g₁ g₂ hg => ?_
    subst hg
    change Watched _ _ ((h.watching s).writeWords is g₁ (p + 8))
      ((h.withJunk junk).reading.writeWords is g₁ ((data.add p).add 8))
    rw [add_add]
    exact ih _

theorem follows_writeGeneralRegisters (hcells : data.cells = s ++ 0 :: rest) :
    Follows ((h.watching s).writeGeneralRegisters g 0)
      ((h.withJunk junk).reading.writeGeneralRegisters g data) := by
  refine (follows_writeWords hcells _ 0).bind ?_
  rintro ⟨g₁, p⟩ ⟨g₂, q⟩ ⟨hg, hq⟩
  subst hg hq
  have hstatus : Follows ((h.watching s).readUint32 (p + 200))
      ((h.withJunk junk).reading.readUint32 ((data.add p).add 200)) := by
    rw [add_add]
    exact follows_readUint32 hcells _
  exact follows_bind hstatus fun value => follows_ok _

theorem follows_writeSingleRegister (hcells : data.cells = s ++ 0 :: rest) :
    Follows ((h.watching s).writeSingleRegister g 0)
      ((h.withJunk junk).reading.writeSingleRegister g data) := by
  refine follows_bind (follows_string hcells 0) fun t => ?_
  refine follows_bind (follows_assigned _ _ _ _) fun reg => ?_
  refine (follows_index hcells 0 _).bind fun p found hfound => ?_
  subst hfound
  have hwrite : Follows ((h.watching s).writeRegister g reg (p + 1))
      ((h.withJunk junk).reading.writeRegister g reg ((data.add p).add 1)) := by
    rw [add_add]
    exact follows_writeRegister hcells reg _
  exact follows_bind hwrite fun g₁ => follows_ok _

theorem follows_contentByte (hcells : data.cells = s ++ 0 :: rest) (p : Nat) :
    Watched Misuse.plain (fun x y => x.1 = y.1 ∧ y.2 = data.add x.2)
      ((h.watching s).contentByte p)
      ((h.withJunk junk).reading.contentByte (data.add p)) := by
  refine (follows_deref hcells p).bind fun c c' hc => ?_
  subst hc
  have hnext : Follows ((h.watching s).deref (p + 1))
      ((h.withJunk junk).reading.deref ((data.add p).add 1)) := by
    rw [add_add]
    exact follows_deref hcells _
  refine watched_ite (fun _ => hnext.bind fun d d' hd => ?_) fun _ => ?_
  · subst hd
    exact watched_ok ⟨rfl, add_add data p 2⟩
  · exact watched_ok ⟨rfl, add_add data p 1⟩

/-- An induction on the number of bytes left. -/
theorem follows_writeMemoryLoop (hcells : data.cells = s ++ 0 :: rest) (size p : Nat)
    (address : BitVec 32) :
    Follows ((h.watching s).writeMemoryLoop size p address g)
      ((h.withJunk junk).reading.writeMemoryLoop size (data.add p) address g) := by
  induction size generalizing p address g with
  | zero => exact follows_ok _
  | succ size ih =>
    refine (follows_contentByte hcells p).bind ?_
    rintro ⟨v, q⟩ ⟨v', q'⟩ ⟨hv, hq⟩
    subst hv hq
    refine follows_bind (follows_target _) fun y => ?_
    exact watched_ite (fun _ => ih _ _) fun _ => follows_ok _

theorem follows_writeMemoryBinary (hcells : data.cells = s ++ 0 :: rest) :
    Follows ((h.watching s).writeMemoryBinary g 0)
      ((h.withJunk junk).reading.writeMemoryBinary g data) := by
  refine follows_bind (follows_string hcells 0) fun t => ?_
  refine follows_bind (follows_assigned _ _ _ _) fun address => ?_
  refine follows_bind (follows_assigned _ _ _ _) fun size => ?_
  refine (follows_index hcells 0 _).bind fun p found hfound => ?_
  subst hfound
  have hloop : Follows ((h.watching s).writeMemoryLoop size.toNat (p + 1) address g)
      ((h.withJunk junk).reading.writeMemoryLoop size.toNat ((data.add p).add 1) address g) := by
    rw [add_add]
    exact follows_writeMemoryLoop hcells _ _ _
  refine watched_ite (fun _ => follows_bind hloop fun x => ?_) fun _ => follows_ok _
  exact watched_ite (fun _ => follows_ok _) fun _ => follows_ok _

theorem follows_breakpoint (hcells : data.cells = s ++ 0 :: rest)
    (typeLocal addressLocal : GdbLocal)
    (call : Breakpoints → BitVec 32 → Except Fault (Int × Breakpoints))
    (failed : List (BitVec 8)) :
    Follows ((h.watching s).breakpoint typeLocal addressLocal call failed g 0)
      ((h.withJunk junk).reading.breakpoint typeLocal addressLocal call failed g data) := by
  refine follows_bind (follows_string hcells 0) fun t => ?_
  refine follows_bind (follows_assigned _ _ _ _) fun type => ?_
  refine watched_ite (fun _ => follows_ok _) fun _ => ?_
  refine follows_bind (follows_assigned _ _ _ _) fun address => ?_
  refine follows_bind (follows_target _) fun y => ?_
  exact watched_ite (fun _ => follows_ok _) fun _ => follows_ok _

/-- The watch goes the way of the program, whatever lies behind the payload and in the
variables. -/
theorem follows_serve (hcells : data.cells = s ++ 0 :: rest) (c : BitVec 8) :
    Follows ((h.watching s).serve h steps g c 0)
      ((h.withJunk junk).reading.serve h steps g c data) := by
  unfold Reading.serve
  refine watched_ite (fun _ => follows_cont) fun _ => ?_
  refine watched_ite (fun _ => follows_cont) fun _ => ?_
  refine watched_ite (fun _ => follows_ok _) fun _ => ?_
  refine watched_ite (fun _ => follows_query hcells) fun _ => ?_
  refine watched_ite (fun _ => follows_ok _) fun _ => ?_
  refine watched_ite (fun _ => follows_readMemory hcells) fun _ => ?_
  refine watched_ite (fun _ => follows_readSingleRegister hcells) fun _ => ?_
  refine watched_ite (fun _ => follows_ok _) fun _ => ?_
  refine watched_ite (fun _ => follows_setThread hcells) fun _ => ?_
  refine watched_ite (fun _ => follows_step) fun _ => ?_
  refine watched_ite (fun _ => follows_step) fun _ => ?_
  refine watched_ite (fun _ => follows_writeGeneralRegisters hcells) fun _ => ?_
  refine watched_ite (fun _ => follows_writeMemoryBinary hcells) fun _ => ?_
  refine watched_ite (fun _ => follows_writeSingleRegister hcells) fun _ => ?_
  refine watched_ite (fun _ => follows_breakpoint hcells _ _ _ _) fun _ => ?_
  refine watched_ite (fun _ => follows_breakpoint hcells _ _ _ _) fun _ => ?_
  exact follows_ok _

theorem contLoop_withJunk (h : Host) (junk : GdbLocal → BitVec 32) (steps : Nat) (g : Gdb) :
    contLoop (h.withJunk junk) steps g = contLoop h steps g := by
  induction steps generalizing g with
  | zero => rfl
  | succ steps ih =>
    unfold contLoop
    simp only [ih]
    rfl

theorem serve_withJunk {P ε : Type} (r : Reading P ε) (c : BitVec 8) (p : P) :
    r.serve (h.withJunk junk) steps g c p = r.serve h steps g c p := by
  unfold Reading.serve Reading.cont
  rw [contLoop_withJunk]
  rfl

/-- **A request that is decoded safely has one outcome**, whatever lies behind its payload
and whatever the variables held. -/
theorem DecodesSafely.outcome {c : BitVec 8} {data' : Pointer} {rest' : List (BitVec 8)}
    (hd : DecodesSafely h steps g c s) (hcells : data.cells = s ++ 0 :: rest)
    (hcells' : data'.cells = s ++ 0 :: rest') (junk junk' : GdbLocal → BitVec 32) :
    respond (h.withJunk junk) steps g c data = respond (h.withJunk junk') steps g c data' := by
  have hfirst : Follows ((h.watching s).serve h steps g c 0)
      ((h.withJunk junk).reading.serve h steps g c data) := follows_serve hcells c
  have hsecond : Follows ((h.watching s).serve h steps g c 0)
      ((h.withJunk junk').reading.serve h steps g c data') := follows_serve hcells' c
  rw [respond_stages, respond_stages, serve_withJunk, serve_withJunk]
  cases hrun : (h.watching s).serve h steps g c 0 with
  | ok a =>
    rw [hrun] at hfirst hsecond
    obtain ⟨b, hb, rfl⟩ := hfirst
    obtain ⟨b', hb', rfl⟩ := hsecond
    rw [hb, hb']
  | error e =>
    rw [hrun] at hfirst hsecond
    have htarget := hd e hrun
    cases e with
    | null => exact htarget.elim
    | unassigned x => exact htarget.elim
    | beyond => exact htarget.elim
    | halt e => rw [hfirst e rfl, hsecond e rfl]

end Follow

end Armator.Sim
