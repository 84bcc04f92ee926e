import Armator.Proof.Breakpoints
import Armator.Proof.Download

/-!
# Setting a breakpoint again

`gdb_add_breakpoint` tests for room before it searches. An address that is in the table is
accepted again as long as the table has a free cell; a full table refuses the addresses it
holds as well. The requests `Z` and `z` are handled alike but for the call they make and the
error they report (`breakpoint_run`).
-/

namespace Armator.Sim

open Lib

namespace Breakpoints

/-- The address is in one of the cells in use. -/
def InTable (t : Breakpoints) (a : BitVec 32) : Prop :=
  ∃ i : Nat, (i : Int) < t.breakpointsNumber ∧ t.value i = a

/-- There is no room for a further address. -/
def Full (t : Breakpoints) : Prop := t.breakpointsNumber = MAX_BREAKPOINTS_NUMBER

/-- Setting `a` is idempotent in the table `t`: if `a` is there, a request `Z0` for it is
answered by `OK` and leaves the table as it is; and the result of `gdb_add_breakpoint` says
whether `a` is in the table it leaves. -/
structure SettingIdempotent (t : Breakpoints) (a : BitVec 32) : Prop where
  again : t.InTable a → ∀ (h : Host) (steps : Nat) (g : Gdb) (A N : List (BitVec 8)) (n : Nat),
    g.breakpoints = t → IsNumber A a.toNat → IsNumber N n →
    Exchange h steps g (text "Z0," ++ A ++ char ',' :: N) (text "OK") fun g' => g'.breakpoints = t
  result : ∃ r t', gdbAddBreakpoint t a = .ok (r, t') ∧ (r = 1 ↔ t'.InTable a)

section Table

variable {t : Breakpoints} {n : Nat} {a : BitVec 32}

theorem Ordered.inTable_iff (h : t.Ordered n) : t.InTable a ↔ a ∈ elems t.value n := by
  rw [mem_elems]
  exact exists_congr fun i => and_congr_left fun _ => by rw [h.number]; omega

theorem Ordered.full_iff (h : t.Ordered n) : t.Full ↔ n = 1024 := by
  rw [Full, h.number, MAX_BREAKPOINTS_NUMBER]
  omega

/-- With a free cell the search is made first, and finds the address. -/
theorem gdbAddBreakpoint_again (h : t.Ordered n) (hn : n < 1024) (ha : t.InTable a) :
    gdbAddBreakpoint t a = .ok (1, t) := by
  obtain ⟨r, hr, hfind⟩ := gdbFindBreakpoint_finds h a
  rw [gdbAddBreakpoint, if_pos (by rw [h.number, MAX_BREAKPOINTS_NUMBER]; omega), hr, ok_bind]
  obtain ⟨i, hi, hv⟩ := mem_elems.mp (h.inTable_iff.mp ha)
  rcases hfind with ⟨k, -, rfl, -⟩ | ⟨-, habsent⟩
  · rw [if_pos (by omega)]
  · exact absurd hv (habsent i hi)

theorem result_iff (h : t.Ordered n) :
    (∃ r t', gdbAddBreakpoint t a = .ok (r, t') ∧ (r = 1 ↔ t'.InTable a)) ↔
      ¬ (t.Full ∧ t.InTable a) := by
  have hle := h.le
  rw [h.full_iff]
  by_cases hn : n < 1024
  · obtain ⟨t', n', hrun, h', helems⟩ := gdbAddBreakpoint_spec h hn a
    have hin : t'.InTable a := by
      rw [h'.inTable_iff, helems]
      exact Finset.mem_insert_self a _
    exact iff_of_true ⟨1, t', hrun, iff_of_true rfl hin⟩ fun hf => by omega
  · rw [gdbAddBreakpoint_full h hn a]
    constructor
    · rintro ⟨r, t', heq, hr⟩ ⟨-, ha⟩
      cases heq
      exact absurd (hr.mpr ha) (by decide)
    · exact fun hna => ⟨0, t, rfl, iff_of_false (by decide) fun ha => hna ⟨by omega, ha⟩⟩

end Table

end Breakpoints

/-! ## The request -/

namespace Breakpoints.Request

def address : Request → BitVec 32
  | add a => a
  | remove a => a

def letter : Request → BitVec 8
  | add _ => char 'Z'
  | remove _ => char 'z'

def handler : Request → Handler
  | add _ => setBreakpoint
  | remove _ => removeBreakpoint

/-- The reply where the call has returned 0. -/
def refusal : Request → List (BitVec 8)
  | add _ => text "E04"
  | remove _ => text "E05"

theorem handler_letter (q : Request) : Sim.handler q.letter = some q.handler := by
  cases q <;> rfl

end Breakpoints.Request

section Handler

variable {h : Host} {g : Gdb} {data : Pointer} {a : BitVec 32} {A N rest : List (BitVec 8)}
  {n : Nat} {result : Int} {table : Breakpoints}

theorem breakpointArguments_eq (type address : GdbLocal) (hA : IsNumber A a.toNat)
    (hN : IsNumber N n) (hcells : data.cells = text "0," ++ A ++ char ',' :: N ++ 0 :: rest) :
    breakpointArguments h type address data = .ok (0, a) := by
  have hstring := Pointer.string_eq hcells (by
    rw [List.mem_append, List.mem_append, List.mem_cons]
    rintro ((hm | hm) | hm | hm)
    · exact absurd hm (by decide)
    · exact hA.not_mem (by decide) hm
    · cases hm
    · exact hN.not_mem (by decide) hm)
  have hscan : sscanf [.hex none, .literal (char ','), .hex none, .literal (char ','), .hex none]
      (text "0," ++ A ++ char ',' :: N) = [0, (a.toNat : Int), (n : Int)] := by
    have hpair := sscanf_pair hA hN ends_nil
    rw [List.append_nil] at hpair
    have hzero : scanHex none ([char '0'] ++ char ',' :: (A ++ char ',' :: N)) =
        some (0, char ',' :: (A ++ char ',' :: N)) :=
      scanHex_digits (by decide) (by decide) (ends_cons (by decide))
    rw [List.append_assoc]
    change sscanf _ ([char '0'] ++ char ',' :: (A ++ char ',' :: N)) = _
    rw [sscanf, hzero]
    dsimp only
    rw [sscanf, if_pos rfl, hpair]
  have hzero : h.assigned 8 [0, (a.toNat : Int), (n : Int)] 0 type = 0 :=
    h.fit_ofNat (n := 0) (by decide)
  have haddress : h.assigned 32 [0, (a.toNat : Int), (n : Int)] 1 address = a := h.fit_toNat a
  rw [breakpointArguments, hstring, ok_bind]
  dsimp only
  rw [hscan, hzero, haddress]

/-- A request for a call `q`, answered by whether `q` has returned 0. -/
theorem breakpoint_run (q : Breakpoints.Request) (steps : Nat) (hA : IsNumber A q.address.toNat)
    (hN : IsNumber N n) (hcells : data.cells = text "0," ++ A ++ char ',' :: N ++ 0 :: rest)
    (hcall : q.run g.breakpoints = .ok (result, table)) :
    q.handler h steps g data = lift (gdbSendData { g with breakpoints := table }
      (if result ≠ 0 then text "OK" else q.refusal)) := by
  cases q
  all_goals
    simp only [Breakpoints.Request.run] at hcall
    simp only [Breakpoints.Request.handler, setBreakpoint, removeBreakpoint,
      Breakpoints.Request.refusal, breakpointArguments_eq _ _ hA hN hcells, ok_bind,
      Breakpoints.Request.address]
    rw [if_neg (by decide), hcall, ok_bind]
    split <;> rfl

theorem exchange_setBreakpoint (steps : Nat) (hA : IsNumber A a.toNat) (hN : IsNumber N n)
    (hadd : gdbAddBreakpoint g.breakpoints a = .ok (1, g.breakpoints)) :
    Exchange h steps g (text "Z0," ++ A ++ char ',' :: N) (text "OK") fun g' =>
      g'.breakpoints = g.breakpoints := by
  change Exchange h steps g (char 'Z' :: (text "0," ++ A ++ char ',' :: N)) _ _
  refine exchange_of_handler rfl fun data rest hcells => ?_
  obtain ⟨p, hp⟩ := gdbSendData_ok g.begun
  refine ⟨g.begun, p, ?_, rfl, rfl⟩
  have hrun := breakpoint_run (h := h) (g := g.begun) (.add a) steps hA hN hcells hadd
  rw [if_pos (by decide)] at hrun
  change _ = lift (gdbSendData g.begun (text "OK")) at hrun
  rw [hp] at hrun
  exact hrun

end Handler

/-! ## Every reachable table -/

namespace Breakpoints

/-- **Setting is idempotent** exactly where the table is not full or does not hold the
address. -/
theorem settingIdempotent_iff (junk : Nat → BitVec 32) (qs : List Request) :
    ∃ rs t, Request.runAll (init junk) qs = .ok (rs, t) ∧
      ∀ a, t.SettingIdempotent a ↔ ¬ (t.Full ∧ t.InTable a) := by
  obtain ⟨t, hrun, n, ho, -⟩ := runAll_represents (represents_init junk) qs
  refine ⟨_, t, hrun, fun a => ⟨fun hs => (result_iff ho).mp hs.result, fun hna => ?_⟩⟩
  refine ⟨fun ha h steps g A N m hg hA hN => ?_, (result_iff ho).mpr hna⟩
  have hn : n < 1024 := by
    have hle := ho.le
    have hfull : ¬ t.Full := fun hf => hna ⟨hf, ha⟩
    rw [ho.full_iff] at hfull
    omega
  subst hg
  exact exchange_setBreakpoint steps hA hN (gdbAddBreakpoint_again ho hn ha)

theorem applyAll_add {s : Finset (BitVec 32)} {l : List (BitVec 32)}
    (h : s.card + l.length ≤ 1024) :
    (Request.applyAll s (l.map .add)).2 = s ∪ l.toFinset := by
  induction l generalizing s with
  | nil => simp [Request.applyAll]
  | cons a l ih =>
    have hcard := Finset.card_insert_le a s
    rw [List.length_cons] at h
    have hadd : Request.apply s (.add a) = (1, insert a s) := if_pos (by omega)
    rw [List.map_cons, Request.applyAll, hadd]
    dsimp only
    rw [ih (by omega), List.toFinset_cons, Finset.insert_union, Finset.union_insert]

/-- The addresses below 1024, each set once. -/
def fill : List (BitVec 32) := (List.range 1024).map (BitVec.ofNat 32)

theorem nodup_fill : fill.Nodup := by
  refine List.Nodup.map_on (fun x hx y hy heq => ?_) List.nodup_range
  have hx := List.mem_range.mp hx
  have hy := List.mem_range.mp hy
  have h := congrArg BitVec.toNat heq
  rw [BitVec.toNat_ofNat, BitVec.toNat_ofNat, Nat.mod_eq_of_lt (by omega),
    Nat.mod_eq_of_lt (by omega)] at h
  exact h

/-- After the requests for the addresses below 1024, setting the first of them again is
refused. -/
theorem not_settingIdempotent_full :
    ∃ rs t, Request.runAll (init fun _ => 0) (fill.map .add) = .ok (rs, t) ∧
      ¬ t.SettingIdempotent 0 := by
  obtain ⟨t, hrun, n, ho, helems⟩ := runAll_represents (represents_init fun _ => 0) (fill.map .add)
  have hlen : fill.length = 1024 := by rw [fill, List.length_map, List.length_range]
  rw [applyAll_add (by rw [Finset.card_empty, hlen]), Finset.empty_union] at helems
  have hn : n = 1024 := by
    rw [← ho.card, helems, List.toFinset_card_of_nodup nodup_fill, hlen]
  have hin : t.InTable 0 := by
    rw [ho.inTable_iff, helems, List.mem_toFinset]
    exact List.mem_map.mpr ⟨0, List.mem_range.mpr (by decide), rfl⟩
  exact ⟨_, t, hrun, fun hs => (result_iff ho).mp hs.result ⟨ho.full_iff.mpr hn, hin⟩⟩

end Breakpoints

end Armator.Sim
