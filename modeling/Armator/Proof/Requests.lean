import Armator.Proof.Continue
import Armator.Proof.Download
import Armator.Proof.Reply
import Armator.Proof.Setting
import Armator.Proof.SingleRegister
import Armator.Spec.Debugger

/-!
# Requests and replies as texts

`Writes` says how a client may write a request, `Reply.text` how the server writes a reply. Each
request is one of `Spec.Machine.Serves` for the simulated processor (`exchange_serves`): the
handler reads from the text what was written there, does it, and sends the text of the reply.
-/

namespace Armator.Sim

open Lib

/-! ## The processor under the debugger -/

def setWords (r : Registers) (w : Nat → BitVec 32) : Registers :=
  (List.range 16).foldl (fun r i => r.set i (w i)) r

/-- The simulated processor, as the debugger uses it. -/
def armMachine (h : Host) : Spec.Machine ArmCore where
  register p n := p.reg.get n
  setRegister p n v := { p with reg := p.reg.set n v }
  status p := registersReadCpsr p.reg
  setRegisters p w c := { p with reg := registersWriteCpsr (setWords p.reg w) c }
  size p := p.mem.taille
  byte p i := p.mem.get i
  write p a bs := { p with mem := p.mem.write a bs }
  step p := (armStep h.build p).toOption

/-- The server has the target `t`. -/
structure Gdb.Shows (g : Gdb) (t : Spec.Target ArmCore) : Prop where
  arm : g.arm = t.core
  exception : g.targetException = t.exception
  breakpoints : g.breakpoints.Represents t.breakpoints

/-! ## Texts -/

def replyText : Spec.Reply → List (BitVec 8)
  | .ok => text "OK"
  | .failed .outside => text "E0E"
  | .failed .notWritten => text "E02"
  | .failed .noRoom => text "E04"
  | .failed .notThere => text "E05"
  | .word v => hexText 8 v.toNat
  | .bytes bs => hexBytes bs
  | .registers w status =>
    layout (fun i => hexText 8 (w i).toNat) unimplemented (hexText 8 status.toNat)
  | .stopped exception => stopText exception

/-- How a request may be written. A signal to go on with is not looked at. -/
inductive Writes : Spec.Request → List (BitVec 8) → Prop where
  | readRegisters : Writes .readRegisters (text "g")
  | writeRegisters {w : Nat → BitVec 32} {c : BitVec 32} {word : Nat → List (BitVec 8)}
      {skipped status : List (BitVec 8)} : (∀ i < 16, IsField (word i) (w i)) →
      skipped.length = 200 → IsField status c →
      Writes (.writeRegisters w c) (char 'G' :: layout word skipped status)
  | readRegister {n : Nat} : Writes (.readRegister n) (askRegister n)
  | writeRegister {n : Nat} {v : BitVec 32} {word : List (BitVec 8)} : IsField word v →
      Writes (.writeRegister n v) (setRegister n word)
  | readMemory {a : BitVec 32} {n : Nat} {A N : List (BitVec 8)} : IsNumber A a.toNat →
      IsNumber N n → Writes (.readMemory a n) (char 'm' :: (A ++ char ',' :: N))
  | writeMemory {a : BitVec 32} {bs A N : List (BitVec 8)} : IsNumber A a.toNat →
      IsNumber N bs.length →
      Writes (.writeMemory a bs) (char 'X' :: (A ++ char ',' :: (N ++ char ':' :: escape bs)))
  | setBreakpoint {a : BitVec 32} {n : Nat} {A N : List (BitVec 8)} : IsNumber A a.toNat →
      IsNumber N n → Writes (.setBreakpoint a) (text "Z0," ++ A ++ char ',' :: N)
  | removeBreakpoint {a : BitVec 32} {n : Nat} {A N : List (BitVec 8)} : IsNumber A a.toNat →
      IsNumber N n → Writes (.removeBreakpoint a) (text "z0," ++ A ++ char ',' :: N)
  | step : Writes .step (text "s")
  | stepWithSignal {signal : List (BitVec 8)} : Writes .step (char 'S' :: signal)
  | run : Writes .run (text "c")
  | runWithSignal {signal : List (BitVec 8)} : Writes .run (char 'C' :: signal)
  | reason : Writes .reason (text "?")

/-! ## Each request -/

section Exchanges

variable {h : Host} {steps : Nat} {g : Gdb} {t t' : Spec.Target ArmCore} {q : Spec.Request}
  {r : Spec.Reply} {payload : List (BitVec 8)}

theorem Gdb.Shows.begun (hg : g.Shows t) : g.begun.Shows t :=
  ⟨hg.arm, hg.exception, hg.breakpoints⟩

theorem Gdb.Shows.sent (hg : g.Shows t) (p : Packet) (s : List (BitVec 8)) :
    ((g.sent p s).record .unlock).Shows t :=
  ⟨hg.arm, hg.exception, hg.breakpoints⟩

/-- A handler that leaves the server with `t'` but for what it sends. -/
theorem exchange_of_shows {c : BitVec 8} {s reply : List (BitVec 8)} {f : Handler}
    (hf : handler c = some f)
    (hrun : ∀ data rest, data.cells = s ++ 0 :: rest → ∃ (g₁ : Gdb) (p : Packet),
      f h steps g.begun data = .ok (g₁.sent p reply) ∧ g₁.events = g.begun.events ∧ g₁.Shows t') :
    Exchange h steps g (c :: s) reply fun g' => g'.Shows t' :=
  exchange_of_handler hf fun data rest hcells => by
    obtain ⟨g₁, p, hok, hev, hshows⟩ := hrun data rest hcells
    exact ⟨g₁, p, hok, hev, hshows.sent p reply⟩

/-! ### Registers -/

theorem exchange_readRegisters (hg : g.Shows t) :
    Exchange h steps g (text "g")
      (replyText (.registers ((armMachine h).register t.core) ((armMachine h).status t.core)))
      fun g' => g'.Shows t :=
  exchange_of_shows rfl fun data rest _ => by
    obtain ⟨p, hp, -⟩ := readGeneralRegisters_eq h steps g.begun data
    refine ⟨g.begun, p, ?_, rfl, hg.begun⟩
    rw [← hg.arm]
    exact hp

theorem setWords_get (r : Registers) (w : Nat → BitVec 32) (j : Nat) :
    (setWords r w).get j = if j < 16 then w j else r.get j := by
  have hall (n : Nat) (hn : n ≤ 16) : ((List.range n).foldl (fun r i => r.set i (w i)) r).get j =
      if j < n then w j else r.get j := by
    induction n with
    | zero => rfl
    | succ n ih =>
      have hcell : n < NB_REGISTER := by
        unfold NB_REGISTER
        omega
      rw [List.range_succ, List.foldl_append, List.foldl_cons, List.foldl_nil,
        Registers.get_set hcell, ih (by omega)]
      by_cases hj : j = n
      · rw [if_pos hj, if_pos (by omega), hj]
      · rw [if_neg hj]
        by_cases hlt : j < n
        · rw [if_pos hlt, if_pos (by omega)]
        · rw [if_neg hlt, if_neg (by omega)]
  exact hall 16 (Nat.le_refl 16)

theorem setWords_watch (r : Registers) (w : Nat → BitVec 32) :
    (setWords r w).watch = r.watch := by
  have hall (is : List Nat) : (is.foldl (fun r i => r.set i (w i)) r).watch = r.watch := by
    induction is generalizing r with
    | nil => rfl
    | cons i is ih => exact ih (r.set i (w i))
  exact hall (List.range 16)

theorem exchange_writeRegisters (hg : g.Shows t) {w : Nat → BitVec 32} {c : BitVec 32}
    {word : Nat → List (BitVec 8)} {skipped status : List (BitVec 8)}
    (hw : ∀ i < 16, IsField (word i) (w i)) (hskip : skipped.length = 200)
    (hstatus : IsField status c) :
    Exchange h steps g (char 'G' :: layout word skipped status) (text "OK") fun g' =>
      g'.Shows { t with core := (armMachine h).setRegisters t.core w c } :=
  exchange_of_shows rfl fun data rest hcells => by
    obtain ⟨r, p, hp, hwatch, hget⟩ := writeGeneralRegisters_eq (h := h) (g := g.begun) steps
      hw hskip hstatus hcells
    have hreg : r = setWords t.core.reg w := by
      rw [← hg.arm]
      refine Registers.ext_get (hwatch.trans (setWords_watch _ _).symm) fun j _ => ?_
      rw [hget, setWords_get]
      rfl
    refine ⟨_, p, hp, rfl, ?_, hg.exception, hg.breakpoints⟩
    rw [hreg, ← hg.arm]
    rfl

theorem exchange_readRegister (hg : g.Shows t) {n : Nat} (hn : n ≤ 9) :
    Exchange h steps g (askRegister n) (replyText (.word ((armMachine h).register t.core n)))
      fun g' => g'.Shows t :=
  exchange_of_shows rfl fun data rest hcells => by
    obtain ⟨p, hp⟩ := readSingleRegister_eq h steps g.begun (by omega) hcells
    refine ⟨g.begun, p, ?_, rfl, hg.begun⟩
    rw [namedRegister_of_le hn] at hp
    rw [← hg.arm]
    exact hp

theorem exchange_writeRegister (hg : g.Shows t) {n : Nat} {v : BitVec 32} {word : List (BitVec 8)}
    (hn : n < 16) (hw : IsField word v) :
    Exchange h steps g (setRegister n word) (text "OK") fun g' =>
      g'.Shows { t with core := (armMachine h).setRegister t.core n v } :=
  exchange_of_shows rfl fun data rest hcells => by
    obtain ⟨p, hp⟩ := writeSingleRegister_eq h steps g.begun hn hw hcells
    refine ⟨_, p, hp, rfl, ?_, hg.exception, hg.breakpoints⟩
    rw [← hg.arm]
    rfl

/-! ### Memory -/

theorem bytes_eq (p : ArmCore) {a : BitVec 32} {n : Nat} (hwrap : a.toNat + n < 2 ^ 32) :
    (armMachine h).bytes p a n = p.mem.bytes a n := by
  unfold Spec.Machine.bytes Memory.bytes span
  rw [List.map_map]
  refine List.map_congr_left fun i hi => ?_
  rw [List.mem_range] at hi
  exact congrArg p.mem.get (byteIndex_of_lt (by omega)).symm

theorem exchange_readMemory (hg : g.Shows t) {a : BitVec 32} {n : Nat} {A N : List (BitVec 8)}
    (hA : IsNumber A a.toNat) (hN : IsNumber N n) (h1 : 1 ≤ n) (hn : n ≤ Spec.maxRead)
    (hold : (armMachine h).Holds t.core a n) :
    Exchange h steps g (char 'm' :: (A ++ char ',' :: N))
      (replyText (.bytes ((armMachine h).bytes t.core a n))) fun g' => g'.Shows t :=
  exchange_of_shows rfl fun data rest hcells => by
    have hmem : a.toNat + n ≤ g.begun.arm.mem.taille := by
      have hsize := hold.1
      rw [← hg.arm] at hsize
      exact hsize
    have hfit : 2 * n + 5 ≤ MAX_PACKET_SIZE := by
      unfold Spec.maxRead at hn
      unfold MAX_PACKET_SIZE
      omega
    obtain ⟨p, hp⟩ := readMemory_eq (h := h) (g := g.begun) steps hA hN h1 hmem hfit hcells
    refine ⟨g.begun, p, ?_, rfl, hg.begun⟩
    rw [bytes_eq t.core hold.2, ← hg.arm]
    exact hp

theorem outside_of_size (hg : g.Shows t) {a : BitVec 32}
    (hout : (armMachine h).size t.core ≤ a.toNat) :
    ¬ a.toNat < memoryGetSize g.begun.arm.mem := by
  have hsize : g.begun.arm.mem.taille ≤ a.toNat := by
    rw [← hg.arm] at hout
    exact hout
  exact Nat.not_lt.2 hsize

theorem sendData_short {s : List (BitVec 8)} (hs : Short s) (g : Gdb) :
    ∃ p, gdbSendData g s = .ok (g.sent p s) := by
  obtain ⟨p, hp, -⟩ := gdbSendData_sent (g := g) hs.1.not_mem hs.2
  exact ⟨p, hp⟩

theorem exchange_readOutside (hg : g.Shows t) {a : BitVec 32} {n : Nat} {A N : List (BitVec 8)}
    (hA : IsNumber A a.toNat) (hN : IsNumber N n)
    (hout : (armMachine h).size t.core ≤ a.toNat) :
    Exchange h steps g (char 'm' :: (A ++ char ',' :: N)) (text "E0E") fun g' => g'.Shows t :=
  exchange_of_shows rfl fun data rest hcells => by
    have hstring := Pointer.string_eq (s := A ++ char ',' :: N) hcells (by
      rw [List.mem_append, List.mem_cons]
      rintro (hm | hm | hm)
      · exact hA.not_mem (by decide) hm
      · cases hm
      · exact hN.not_mem (by decide) hm)
    have hscan : sscanf [.hex none, .literal (char ','), .hex none] (A ++ char ',' :: N) =
        [(a.toNat : Int), (n : Int)] := by
      have hpair := sscanf_pair hA hN ends_nil
      rwa [List.append_nil] at hpair
    have haddress : (readMemoryArguments h (A ++ char ',' :: N)).1 = a := by
      unfold readMemoryArguments
      dsimp only
      rw [hscan]
      exact h.fit_toNat a
    obtain ⟨p, hp⟩ := sendData_short (s := text "E0E") (by decide) g.begun
    refine ⟨g.begun, p, ?_, rfl, hg.begun⟩
    rw [readMemory_stages, readMemory_reading h g.begun data hstring, haddress,
      if_neg (outside_of_size hg hout)]
    change lift (gdbSendData g.begun (text "E0E")) = _
    rw [hp]
    rfl

theorem exchange_writeMemory (hg : g.Shows t) {a : BitVec 32} {bs A N : List (BitVec 8)}
    (hA : IsNumber A a.toNat) (hN : IsNumber N bs.length)
    (hin : a.toNat < (armMachine h).size t.core)
    (hold : (armMachine h).Holds t.core a bs.length) :
    Exchange h steps g (char 'X' :: (A ++ char ',' :: (N ++ char ':' :: escape bs))) (text "OK")
      fun g' => g'.Shows { t with core := (armMachine h).write t.core a bs } :=
  exchange_of_shows rfl fun data rest hcells => by
    have hlt : a.toNat < g.begun.arm.mem.taille := by
      rw [← hg.arm] at hin
      exact hin
    have hmem : a.toNat + bs.length ≤ g.begun.arm.mem.taille := by
      have hsize := hold.1
      rw [← hg.arm] at hsize
      exact hsize
    have hn : bs.length < 2 ^ 32 := Nat.lt_of_le_of_lt (Nat.le_add_left ..) hold.2
    obtain ⟨p, hp⟩ := writeMemoryBinary_eq (h := h) (g := g.begun) steps hA hN hlt hn hmem hcells
    refine ⟨_, p, hp, rfl, ?_, hg.exception, hg.breakpoints⟩
    rw [← hg.arm]
    rfl

theorem exchange_writeOutside (hg : g.Shows t) {a : BitVec 32} {bs A N : List (BitVec 8)}
    (hA : IsNumber A a.toNat) (hN : IsNumber N bs.length)
    (hout : (armMachine h).size t.core ≤ a.toNat) :
    Exchange h steps g (char 'X' :: (A ++ char ',' :: (N ++ char ':' :: escape bs))) (text "E02")
      fun g' => g'.Shows t :=
  exchange_of_shows rfl fun data rest hcells => by
    have hheader : data.cells = A ++ char ',' :: N ++ char ':' :: (escape bs ++ 0 :: rest) := by
      rw [hcells]
      simp
    obtain ⟨s, found, hstring, hscan, hfound, -⟩ := header_eq hA hN hheader
      (List.mem_append_right _ List.mem_cons_self)
    have haddress : h.assigned 32 [(a.toNat : Int), (bs.length : Int)] 0 .writeMemoryAddress = a :=
      h.fit_toNat a
    obtain ⟨p, hp⟩ := sendData_short (s := text "E02") (by decide) g.begun
    refine ⟨g.begun, p, ?_, rfl, hg.begun⟩
    unfold writeMemoryBinary
    rw [hstring, ok_bind]
    dsimp only
    rw [hscan, haddress, hfound, ok_bind, if_neg (outside_of_size hg hout), ok_bind]
    dsimp only
    rw [if_neg Bool.false_ne_true, hp]
    rfl

/-! ### Breakpoints -/

/-- A call is carried out on the set of the target. -/
theorem exchange_breakpoint (hg : g.Shows t) (q : Breakpoints.Request) {result : Int}
    {set : Finset (BitVec 32)} (happly : q.apply t.breakpoints = (result, set))
    {n : Nat} {A N : List (BitVec 8)} (hA : IsNumber A q.address.toNat) (hN : IsNumber N n) :
    Exchange h steps g (q.letter :: (text "0," ++ A ++ char ',' :: N))
      (if result ≠ 0 then text "OK" else q.refusal)
      fun g' => g'.Shows { t with breakpoints := set } :=
  exchange_of_shows q.handler_letter fun data rest hcells => by
    obtain ⟨table, hrun, htable⟩ := Breakpoints.run_represents hg.breakpoints q
    rw [happly] at hrun htable
    have hshort : Short (if result ≠ 0 then text "OK" else q.refusal) := by
      cases q <;> (dsimp only [Breakpoints.Request.refusal]; split <;> decide)
    obtain ⟨p, hp⟩ := sendData_short hshort { g.begun with breakpoints := table }
    refine ⟨{ g.begun with breakpoints := table }, p, ?_, rfl, hg.arm, hg.exception, htable⟩
    rw [breakpoint_run (g := g.begun) q steps hA hN hcells hrun, hp]
    rfl

theorem apply_there {s : Finset (BitVec 32)} {a : BitVec 32} (ha : a ∈ s) :
    Breakpoints.Request.apply s (.remove a) = (1, s.erase a) :=
  Prod.ext (if_pos ha) rfl

theorem apply_notThere {s : Finset (BitVec 32)} {a : BitVec 32} (ha : a ∉ s) :
    Breakpoints.Request.apply s (.remove a) = (0, s) :=
  Prod.ext (if_neg ha) (Finset.erase_eq_of_notMem ha)

/-! ### Steps and runs -/

theorem steps_iff : (armMachine h).Steps t t' ↔
    armStep h.build t.core = .ok (t'.exception, t'.core) ∧ t'.breakpoints = t.breakpoints := by
  unfold Spec.Machine.Steps armMachine
  dsimp only
  cases armStep h.build t.core with
  | error f => exact ⟨fun hs => (nomatch hs.1), fun hs => (nomatch hs.1)⟩
  | ok x =>
    refine and_congr_left fun _ => ⟨fun hs => ?_, fun hs => ?_⟩
    · exact congrArg Except.ok (Option.some.inj hs)
    · exact congrArg some (Except.ok.inj hs)

theorem shows_singleStep (hg : g.Shows t) (hs : (armMachine h).Steps t t') :
    ∃ g', singleStep h g = .ok g' ∧ g'.Shows t' ∧ g'.events = g.events := by
  obtain ⟨hstep, hbreak⟩ := steps_iff.1 hs
  refine ⟨{ g with targetException := t'.exception, arm := t'.core }, ?_, ⟨rfl, rfl, ?_⟩, rfl⟩
  · rw [singleStep, hg.arm, hstep]
    rfl
  · rw [hbreak]
    exact hg.breakpoints

theorem shows_halts (hg : g.Shows t) :
    halts t.breakpoints g = true ↔ (armMachine h).Halted t := by
  unfold halts Spec.Machine.Halted
  rw [decide_eq_true_iff, hg.arm, hg.exception]
  rfl

theorem contLoop_next_step (hg : g.Shows t) (hs : (armMachine h).Steps t t') :
    ∃ g', g'.Shows t' ∧ g'.events = g.events ∧ ∀ n, contLoop h (n + 1) g =
      if halts t'.breakpoints g' then .ok g' else contLoop h n g' := by
  obtain ⟨g', hstep, hg', hev⟩ := shows_singleStep hg hs
  refine ⟨g', hg', hev, fun n => ?_⟩
  rw [contLoop_succ hg.breakpoints, hstep, hs.2]
  rfl

/-- A run of the target is one of the loop of `cont`, given enough steps: an induction on the
steps to where it halts. -/
theorem shows_contLoop (hr : (armMachine h).Runs t t') :
    ∃ n, ∀ g : Gdb, g.Shows t → ∀ steps ≥ n,
      ∃ g', contLoop h steps g = .ok g' ∧ g'.Shows t' ∧ g'.events = g.events := by
  induction hr with
  | last hs hhalted =>
    refine ⟨1, fun g hg steps hn => ?_⟩
    obtain ⟨g', hg', hev, hloop⟩ := contLoop_next_step hg hs
    obtain ⟨k, rfl⟩ : ∃ k, steps = k + 1 := ⟨steps - 1, by omega⟩
    refine ⟨g', ?_, hg', hev⟩
    rw [hloop, if_pos ((shows_halts hg').2 hhalted)]
  | more hs hgo _ ih =>
    obtain ⟨n, hall⟩ := ih
    refine ⟨n + 1, fun g hg steps hn => ?_⟩
    obtain ⟨g₁, hg₁, hev₁, hloop⟩ := contLoop_next_step hg hs
    obtain ⟨k, rfl⟩ : ∃ k, steps = k + 1 := ⟨steps - 1, by omega⟩
    obtain ⟨g', hrun, hg', hev⟩ := hall g₁ hg₁ k (by omega)
    refine ⟨g', ?_, hg', hev.trans hev₁⟩
    rw [hloop, if_neg fun hstop => hgo ((shows_halts hg₁).1 hstop)]
    exact hrun

theorem stopped_sent {g₀ : Gdb} (hg : g.Shows t) (hev : g.events = g₀.events) :
    ∃ (g₁ : Gdb) (p : Packet), gdbSendStopReason g = .ok (g₁.sent p (stopText t.exception)) ∧
      g₁.events = g₀.events ∧ g₁.Shows t := by
  obtain ⟨p, hp⟩ := stopReason_sent g
  rw [hg.exception] at hp
  exact ⟨g, p, hp, hev, hg⟩

theorem exchange_reason (hg : g.Shows t) :
    Exchange h steps g (text "?") (stopText t.exception) fun g' => g'.Shows t :=
  exchange_of_shows rfl fun data rest _ => by
    obtain ⟨g₁, p, hp, hev, hg₁⟩ := stopped_sent hg.begun rfl
    refine ⟨g₁, p, ?_, hev, hg₁⟩
    rw [reason, hp]
    rfl

/-- The two handlers of a request to step or to continue differ in nothing that is read here. -/
theorem exchange_stopped {c : BitVec 8} {s : List (BitVec 8)} {g' : Gdb} {f₁ f₂ : Handler}
    (hc : handler c = some f₁ ∨ handler c = some f₂)
    (h₁ : ∀ data, f₁ h steps g.begun data = lift (gdbSendStopReason g'))
    (h₂ : ∀ data, f₂ h steps g.begun data = lift (gdbSendStopReason g'))
    (hg' : g'.Shows t') (hev : g'.events = g.begun.events) :
    Exchange h steps g (c :: s) (stopText t'.exception) fun g' => g'.Shows t' := by
  obtain ⟨g₁, p, hp, hev₁, hg₁⟩ := stopped_sent hg' hev
  have hsent : lift (gdbSendStopReason g') = .ok (g₁.sent p (stopText t'.exception)) := by
    rw [hp]
    rfl
  obtain hc | hc := hc
  · exact exchange_of_shows hc fun data rest _ => ⟨g₁, p, (h₁ data).trans hsent, hev₁, hg₁⟩
  · exact exchange_of_shows hc fun data rest _ => ⟨g₁, p, (h₂ data).trans hsent, hev₁, hg₁⟩

theorem exchange_step {c : BitVec 8} {s : List (BitVec 8)}
    (hc : handler c = some step ∨ handler c = some stepWithSignal) (hg : g.Shows t)
    (hs : (armMachine h).Steps t t') :
    Exchange h steps g (c :: s) (stopText t'.exception) fun g' => g'.Shows t' := by
  obtain ⟨g', hstep, hg', hev⟩ := shows_singleStep hg.begun hs
  have hrun : lift (singleStep h g.begun >>= gdbSendStopReason) =
      lift (gdbSendStopReason g') := by
    rw [hstep, ok_bind]
  exact exchange_stopped hc (fun _ => hrun) (fun _ => hrun) hg' hev

theorem exchange_run {c : BitVec 8} {s : List (BitVec 8)}
    (hc : handler c = some cont ∨ handler c = some contWithSignal)
    (hr : (armMachine h).Runs t t') :
    ∃ n, ∀ g : Gdb, g.Shows t → ∀ steps ≥ n,
      Exchange h steps g (c :: s) (stopText t'.exception) fun g' => g'.Shows t' := by
  obtain ⟨n, hall⟩ := shows_contLoop hr
  refine ⟨n, fun g hg steps hn => ?_⟩
  obtain ⟨g', hloop, hg', hev⟩ := hall g.begun hg.begun steps hn
  have hrun : (contLoop h steps g.begun >>= fun g => lift (gdbSendStopReason g)) =
      lift (gdbSendStopReason g') := by
    rw [hloop, ok_bind]
  exact exchange_stopped hc (fun _ => hrun) (fun _ => hrun) hg' hev

end Exchanges

/-- What the debugger may ask for, the server does, however the request is written. -/
theorem exchange_serves {h : Host} {t t' : Spec.Target ArmCore} {q : Spec.Request} {r : Spec.Reply}
    {payload : List (BitVec 8)} (hs : (armMachine h).Serves t q r t') (hw : Writes q payload) :
    ∃ n, ∀ g : Gdb, g.Shows t → ∀ steps ≥ n,
      Exchange h steps g payload (replyText r) fun g' => g'.Shows t' := by
  cases hs with
  | readRegisters =>
    cases hw with
    | readRegisters => exact ⟨0, fun _ hg _ _ => exchange_readRegisters hg⟩
  | writeRegisters =>
    cases hw with
    | writeRegisters hword hskip hstatus =>
      exact ⟨0, fun _ hg _ _ => exchange_writeRegisters hg hword hskip hstatus⟩
  | readRegister hn =>
    cases hw with
    | readRegister => exact ⟨0, fun _ hg _ _ => exchange_readRegister hg hn⟩
  | writeRegister hn =>
    cases hw with
    | writeRegister hword => exact ⟨0, fun _ hg _ _ => exchange_writeRegister hg hn hword⟩
  | readMemory h1 hn hold =>
    cases hw with
    | readMemory hA hN => exact ⟨0, fun _ hg _ _ => exchange_readMemory hg hA hN h1 hn hold⟩
  | readOutside hout =>
    cases hw with
    | readMemory hA hN => exact ⟨0, fun _ hg _ _ => exchange_readOutside hg hA hN hout⟩
  | writeMemory hin hold =>
    cases hw with
    | writeMemory hA hN => exact ⟨0, fun _ hg _ _ => exchange_writeMemory hg hA hN hin hold⟩
  | writeOutside hout =>
    cases hw with
    | writeMemory hA hN => exact ⟨0, fun _ hg _ _ => exchange_writeOutside hg hA hN hout⟩
  | setBreakpoint hcard =>
    cases hw with
    | setBreakpoint hA hN =>
      exact ⟨0, fun _ hg _ _ => exchange_breakpoint hg (.add _) (if_pos hcard) hA hN⟩
  | tooMany hcard =>
    cases hw with
    | setBreakpoint hA hN =>
      exact ⟨0, fun _ hg _ _ => exchange_breakpoint hg (.add _) (if_neg hcard) hA hN⟩
  | removeBreakpoint ha =>
    cases hw with
    | removeBreakpoint hA hN =>
      exact ⟨0, fun _ hg _ _ => exchange_breakpoint hg (.remove _) (apply_there ha) hA hN⟩
  | notThere ha =>
    cases hw with
    | removeBreakpoint hA hN =>
      exact ⟨0, fun _ hg _ _ => exchange_breakpoint hg (.remove _) (apply_notThere ha) hA hN⟩
  | step hstep =>
    cases hw with
    | step => exact ⟨0, fun _ hg _ _ => exchange_step (.inl rfl) hg hstep⟩
    | stepWithSignal => exact ⟨0, fun _ hg _ _ => exchange_step (.inr rfl) hg hstep⟩
  | run hrun =>
    cases hw with
    | run => exact exchange_run (.inl rfl) hrun
    | runWithSignal => exact exchange_run (.inr rfl) hrun
  | reason =>
    cases hw with
    | reason => exact ⟨0, fun _ hg _ _ => exchange_reason hg⟩

end Armator.Sim
