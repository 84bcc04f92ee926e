import Armator.Proof.Portable
import Armator.Proof.Traffic

/-!
# What is done to the processor

Whatever happens to the processor in a run of the process is a step, a write to a register or
to a byte of the memory, or an exception, and something in the input asked for it: a request
with the right sum, or an interrupt. What all of these keep, a run keeps.
-/

namespace Armator.Sim

open Lib Relation

/-! ## Changes -/

inductive Cause where
  | step
  | register
  | memory
  | interrupt (irq : BitVec 8)

/-- The processor, and what its last step ended with. -/
def Gdb.target (g : Gdb) : ArmCore × Int := (g.arm, g.targetException)

/-- One change of the processor. -/
inductive Change (b : Build) : Cause → ArmCore × Int → ArmCore × Int → Prop where
  | step {p p' : ArmCore} {e r : Int} : armStep b p = .ok (r, p') → Change b .step (p, e) (p', r)
  | register {p : ArmCore} {e : Int} {i : Nat} {v : BitVec 32} : i < 16 →
      Change b .register (p, e) ({ p with reg := p.reg.set i v }, e)
  | status {p : ArmCore} {e : Int} {v : BitVec 32} :
      Change b .register (p, e) (armWriteCpsr p v, e)
  | memory {p : ArmCore} {e r : Int} {a : BitVec 32} {v : BitVec 8} {mem : Memory} :
      memoryWriteByte p.mem a v = .ok (r, mem) →
      Change b .memory (p, e) ({ p with mem := mem }, e)
  | interrupt {p p' : ArmCore} {e r : Int} {irq : BitVec 8} :
      armException b p irq = .ok (r, p') → Change b (.interrupt irq) (p, e) (p', e)

/-- What the request with the command letter `c` does. -/
def cause (c : BitVec 8) : Option Cause :=
  if Continues c ∨ c = char 's' ∨ c = char 'S' then some .step
  else if c = char 'G' ∨ c = char 'P' then some .register
  else if c = char 'X' then some .memory
  else none

/-- The changes the request with the command letter `c` may make. -/
def Effect (b : Build) (c : BitVec 8) (x y : ArmCore × Int) : Prop :=
  ∃ k, cause c = some k ∧ Change b k x y

section Serve

variable {P ε : Type} (r : Reading P ε) (h : Host) (steps : Nat) (g : Gdb) (data : P)
  {c : BitVec 8}

theorem singleStep_changes (hc : cause c = some .step) :
    Returns (singleStep h g) fun g' => Effect h.build c g.target g'.target := by
  intro g' hrun
  obtain ⟨⟨r, p⟩, hstep, hg⟩ := exists_of_bind hrun
  cases hg
  exact ⟨.step, hc, .step hstep⟩

theorem cont_changes (hc : cause c = some .step) : Returns (r.cont h steps g) fun a =>
    ReflTransGen (Effect h.build c) g.target a.gdb.target := by
  have hloop := contLoop_keeps h steps (R := fun g g' =>
    ReflTransGen (Effect h.build c) g.target g'.target) .trans
    (fun g => (singleStep_changes h g hc).mono fun _ hone => .single hone) g
  exact (returns_target r hloop).bind fun _ hrun => returns_ok hrun

theorem step_changes (hc : cause c = some .step) : Returns (r.step h g) fun a =>
    ReflTransGen (Effect h.build c) g.target a.gdb.target :=
  (returns_target r (returns_lift (singleStep_changes h g hc))).bind fun _ hrun =>
    returns_ok (.single hrun)

theorem writeRegister_changes (b : Build) (hc : cause c = some .register) (reg : BitVec 32) :
    Returns (r.writeRegister g reg data) fun g' => Effect b c g.target g'.target := by
  refine returns_bind fun value => returns_ite (fun hlt => ?_) fun _ => returns_error
  refine returns_target r (returns_lift ?_)
  have hreg : (reg.setWidth 8).toNat = reg.toNat := by
    rw [BitVec.toNat_setWidth]
    exact Nat.mod_eq_of_lt (by omega)
  rw [registersWrite_of_lt (by omega), ok_bind]
  exact returns_ok ⟨.register, hc, .register (by omega)⟩

theorem writeGeneralRegisters_changes (b : Build) (hc : cause c = some .register) :
    Returns (r.writeGeneralRegisters g data) fun a =>
      ReflTransGen (Effect b c) g.target a.gdb.target := by
  have hloop := writeWords_keeps r (R := fun g g' => ReflTransGen (Effect b c) g.target g'.target)
    (fun _ => .refl) .trans
    (fun g data reg => (writeRegister_changes r g data b hc reg).mono fun _ hone => .single hone)
    (List.range 16) g data
  exact hloop.bind fun _ hrun => returns_bind fun _ =>
    returns_ok (hrun.tail ⟨.register, hc, .status⟩)

theorem writeSingleRegister_changes (b : Build) (hc : cause c = some .register) :
    Returns (r.writeSingleRegister g data) fun a =>
      ReflTransGen (Effect b c) g.target a.gdb.target := by
  refine returns_bind fun s => returns_bind fun reg => returns_bind fun found => ?_
  exact (writeRegister_changes r g _ b hc reg).bind fun g₁ hone => returns_ok (.single hone)

theorem writeMemoryBinary_changes (b : Build) (hc : cause c = some .memory) :
    Returns (r.writeMemoryBinary g data) fun a =>
      ReflTransGen (Effect b c) g.target a.gdb.target := by
  refine returns_bind fun s => returns_bind fun address => returns_bind fun size => ?_
  refine returns_bind fun found => ?_
  have hreply (x : Gdb × Bool) (hx : ReflTransGen (Effect b c) g.target x.1.target) :
      Returns (if x.2 = true then (.ok (.reply x.1 (text "OK")) : Except ε Response)
        else .ok (.reply x.1 (text "E02"))) fun a =>
          ReflTransGen (Effect b c) g.target a.gdb.target :=
    returns_ite (fun _ => returns_ok hx) fun _ => returns_ok hx
  have hloop := writeMemoryLoop_keeps r
    (R := fun g g' => ReflTransGen (Effect b c) g.target g'.target) (fun _ => .refl) .trans
    fun g a v => fun y hy => .single ⟨.memory, hc, .memory hy⟩
  exact returns_ite (fun _ => (hloop _ _ _ g).bind hreply) fun _ => hreply (g, false) .refl

theorem breakpoint_target (typeLocal addressLocal : GdbLocal)
    (call : Breakpoints → BitVec 32 → Except Fault (Int × Breakpoints))
    (failed : List (BitVec 8)) :
    Returns (r.breakpoint typeLocal addressLocal call failed g data) fun a =>
      a.gdb.target = g.target := by
  refine (breakpoint_replies r g data typeLocal addressLocal call failed).mono ?_
  rintro a ⟨table, s, rfl, -⟩
  rfl

theorem readMemory_target : Returns (r.readMemory g data) fun a => a.gdb.target = g.target := by
  refine returns_bind fun s => returns_bind fun address => returns_ite (fun _ => ?_) fun _ => ?_
  · refine returns_bind fun size => returns_ok ?_
    unfold Response.ofDigits
    split <;> rfl
  · exact returns_ok rfl

theorem changes_of_target {b : Build} {x y : ArmCore × Int} (hxy : y = x) :
    ReflTransGen (Effect b c) x y := by
  rw [hxy]

theorem serve_changes (c : BitVec 8) : Returns (r.serve h steps g c data) fun a =>
    ReflTransGen (Effect h.build c) g.target a.gdb.target := by
  have hsame {x : Except ε Response} (hx : Returns x fun a => a.gdb.target = g.target) :
      Returns x fun a => ReflTransGen (Effect h.build c) g.target a.gdb.target :=
    hx.mono fun _ ha => changes_of_target ha
  have hreply (s : List (BitVec 8)) : Returns (.ok (.reply g s) : Except ε Response) fun a =>
      ReflTransGen (Effect h.build c) g.target a.gdb.target := returns_ok .refl
  unfold Reading.serve
  refine returns_ite (fun hc => cont_changes r h steps g (by rw [hc]; rfl)) fun _ => ?_
  refine returns_ite (fun hc => cont_changes r h steps g (by rw [hc]; rfl)) fun _ => ?_
  refine returns_ite (fun _ => returns_ok .refl) fun _ => ?_
  refine returns_ite (fun _ => returns_bind fun s => hreply _) fun _ => ?_
  refine returns_ite (fun _ => hreply _) fun _ => ?_
  refine returns_ite (fun _ => hsame (readMemory_target r g data)) fun _ => ?_
  refine returns_ite (fun _ => ?_) fun _ => ?_
  · exact returns_bind fun _ => returns_ite (fun _ => returns_bind fun _ => hreply _) fun _ =>
      returns_error
  refine returns_ite (fun _ => hreply _) fun _ => ?_
  refine returns_ite (fun _ => ?_) fun _ => ?_
  · exact returns_bind fun _ => returns_bind fun _ =>
      returns_ite (fun _ => hreply _) fun _ => hreply _
  refine returns_ite (fun hc => step_changes r h g (by rw [hc]; rfl)) fun _ => ?_
  refine returns_ite (fun hc => step_changes r h g (by rw [hc]; rfl)) fun _ => ?_
  refine returns_ite (fun hc => ?_) fun _ => ?_
  · exact writeGeneralRegisters_changes r g data h.build (by rw [hc]; rfl)
  refine returns_ite (fun hc => ?_) fun _ => ?_
  · exact writeMemoryBinary_changes r g data h.build (by rw [hc]; rfl)
  refine returns_ite (fun hc => ?_) fun _ => ?_
  · exact writeSingleRegister_changes r g data h.build (by rw [hc]; rfl)
  refine returns_ite (fun _ => hsame (breakpoint_target r g data _ _ _ _)) fun _ => ?_
  refine returns_ite (fun _ => hsame (breakpoint_target r g data _ _ _ _)) fun _ => ?_
  exact hreply []

end Serve

/-! ## Answers -/

section Answers

variable {h : Host} {steps : Nat} {g g' : Gdb} {data : Pointer} {c : BitVec 8} {f : Handler}
  {s : List (BitVec 8)}

theorem gdbSendData_target (g : Gdb) (s : List (BitVec 8)) :
    Returns (gdbSendData g s) fun g' => g'.target = g.target :=
  (gdbSendData_keeps g s).mono fun _ h => congrArg (fun x => (x.1, x.2.1)) h

theorem perform_target (a : Response) : Returns a.perform fun g' => g'.target = a.gdb.target := by
  cases a with
  | silent g => exact returns_ok rfl
  | reply g s => exact returns_lift (gdbSendData_target g s)
  | broken g s f => exact returns_lift (returns_bind fun _ => returns_error)

theorem handler_changes (hf : handler c = some f) : Returns (f h steps g data) fun g' =>
    ReflTransGen (Effect h.build c) g.target g'.target := by
  have hrun : f h steps g data = h.reading.serve h steps g c data >>= Response.perform := by
    rw [← respond_stages]
    unfold respond
    rw [hf]
  rw [hrun]
  refine (serve_changes h.reading h steps g data c).bind fun a ha => ?_
  refine (perform_target a).mono fun g' hg' => ?_
  rw [hg']
  exact ha

end Answers

/-! ## Scanning -/

/-- Among the tokens is a request with the right sum and the command letter `c`. -/
def Requests (ts : List (Rule × List (BitVec 8))) (c : BitVec 8) : Prop :=
  ∃ p, (Rule.packet, p) ∈ ts ∧ RightSum p ∧ p.getD 1 0 = c

section Scanning

variable {h : Host} {g : Gdb} {data : ParserData} {after payload : List (BitVec 8)}
  {x y : BitVec 8}

theorem store_target {d : ParserData} {i : Nat} {c : BitVec 8} :
    Returns (d.store i c) fun d' => d'.gdb.target = d.gdb.target := by
  unfold ParserData.store
  exact returns_ite (fun _ => returns_ok rfl) fun _ => returns_error

theorem handleError_target (data : ParserData) :
    Returns (handleError data) fun d => d.gdb.target = data.gdb.target :=
  returns_ite (fun _ => store_target.bind fun _ hd => returns_ok hd) fun _ => returns_ok rfl

theorem addCharacterToError_target (data : ParserData) (c : BitVec 8) :
    Returns (addCharacterToError data c) fun d => d.gdb.target = data.gdb.target := by
  have hstore (d : ParserData) (hd : d.gdb.target = data.gdb.target) :
      Returns (d.store d.len c >>= fun stored => .ok { stored with len := d.len + 1 }) fun d' =>
        d'.gdb.target = data.gdb.target :=
    store_target.bind fun _ hs => returns_ok (hs.trans hd)
  unfold addCharacterToError
  refine returns_ite (fun _ => ?_) fun _ => hstore data rfl
  exact (handleError_target data).bind hstore

theorem packetRequest_asks (hx : isHex x = true) (hy : isHex y = true) :
    Returns (packetRequest h g (yytext (packetText payload x y) after)
        (packetText payload x y).length) fun r =>
      r.1.target = g.target ∧ ∀ index q, r.2 = some (index, q) →
        RightSum (packetText payload x y) ∧ (packetText payload x y).getD 1 0 = index ∧
          (handler index).isSome := by
  unfold packetRequest
  rw [packetCheck_eq h payload after hx hy]
  change Returns (if decide (hexVal [x, y] = byteSum payload) = true then _ else _) _
  refine returns_ite (fun heq => ?_) fun _ => returns_ok ⟨rfl, nofun⟩
  have hsum : RightSum (packetText payload x y) := rightSum_packetText.2 (of_decide_eq_true heq)
  intro r hrun
  obtain ⟨stored, hstore, hrun⟩ := exists_of_bind hrun
  obtain ⟨index, hload, hrun⟩ := exists_of_bind hrun
  cases hf : handler index with
  | none =>
    rw [hf] at hrun
    obtain ⟨g', hsend, hrun⟩ := exists_of_bind hrun
    cases hrun
    exact ⟨returns_lift (gdbSendData_target (gdbSendAck g) []) g' hsend, nofun⟩
  | some f =>
    rw [hf] at hrun
    cases hrun
    refine ⟨rfl, ?_⟩
    rintro index' q' heq'
    cases heq'
    refine ⟨hsum, ?_, by rw [hf]; rfl⟩
    have hsize : payload.length + 1 < (yytext (packetText payload x y) after).size := by
      simp [yytext, packetText, Block.size]
    rw [Block.store_of_lt hsize] at hstore
    cases hstore
    have hload' :
        1 < ((yytext (packetText payload x y) after).set (payload.length + 1) 0).size := by
      rw [Block.size_set]
      omega
    rw [Block.load_of_lt hload'] at hload
    cases hload
    rw [Block.get_set hsize] at hf ⊢
    cases payload with
    | nil => cases hf
    | cons c s => rfl

theorem scan_asks {t : Rule × List (BitVec 8)} (ht : t.1 = .packet → IsPacket t.2) :
    Returns (scan h after data t) fun r => r.1.gdb.target = data.gdb.target ∧
      ∀ index q, r.2 = some (index, q) → Requests [t] index := by
  obtain ⟨rule, text⟩ := t
  cases rule with
  | packet =>
    obtain ⟨payload, x, y, rfl, -, hx, hy⟩ := ht rfl
    refine (returns_lift (handleError_target data)).bind fun d hd => ?_
    refine (packetRequest_asks hx hy).bind fun r hr => returns_ok ⟨hr.1.trans hd, ?_⟩
    intro index q hq
    obtain ⟨hsum, hindex, -⟩ := hr.2 index q hq
    exact ⟨_, List.mem_singleton_self _, hsum, hindex⟩
  | ack =>
    exact (returns_lift (handleError_target data)).bind fun d hd => returns_ok ⟨hd, nofun⟩
  | nack =>
    have hsend (d : ParserData) (hd : d.gdb.target = data.gdb.target) :
        Returns (gdbTransmitPacket d.gdb >>= fun g => .ok { d with gdb := g }) fun d' =>
          d'.gdb.target = data.gdb.target := by
      intro d' hd'
      obtain ⟨g', hg', hd'⟩ := exists_of_bind hd'
      cases hd'
      unfold gdbTransmitPacket at hg'
      split at hg'
      · cases hg'
        exact hd
      · cases hg'
    refine Returns.bind (P := fun d => d.gdb.target = data.gdb.target) ?_ fun d hd =>
      returns_ok ⟨hd, nofun⟩
    exact returns_lift ((handleError_target data).bind hsend)
  | other =>
    exact (returns_lift (addCharacterToError_target data _)).bind fun d hd =>
      returns_ok ⟨hd, nofun⟩
  | dflt => exact returns_ok ⟨rfl, nofun⟩

end Scanning

/-! ## Runs -/

/-- The input asks for it: with a request, or with an interrupt. -/
def Asked (ts : List (Rule × List (BitVec 8))) (irqs : List (BitVec 8)) : Cause → Prop
  | .interrupt irq => irq ∈ irqs
  | k => ∃ c, Requests ts c ∧ cause c = some k

/-- A change the input asks for. -/
def Caused (b : Build) (ts : List (Rule × List (BitVec 8))) (irqs : List (BitVec 8))
    (x y : ArmCore × Int) : Prop :=
  ∃ k, Asked ts irqs k ∧ Change b k x y

/-- What `gdb_listener` is about to handle was asked for. -/
def GdbPoint.Asked (ts : List (Rule × List (BitVec 8))) : GdbPoint → Prop
  | locking index _ => Requests ts index
  | handling index _ => Requests ts index
  | continuing => ∃ c, Requests ts c ∧ Continues c
  | _ => True

def IrqPoint.Asked (irqs : List (BitVec 8)) : IrqPoint → Prop
  | locking irq => irq ∈ irqs
  | raising irq => irq ∈ irqs
  | _ => True

/-- What is still to come, and what is under way, is part of the input. -/
structure Process.Asking (s : Process) (ts : List (Rule × List (BitVec 8)))
    (bs : List (BitVec 8)) : Prop where
  input : ∀ t ∈ s.input, t ∈ ts
  irqs : ∀ irq ∈ s.irqs, irq ∈ bs
  gdb : s.gdb.Asked ts
  irq : s.irq.Asked bs

section Runs

variable {h : Host} {after : List (Rule × List (BitVec 8)) → List (BitVec 8)} {s t : Process}
  {ts : List (Rule × List (BitVec 8))} {irqs : List (BitVec 8)} {c : BitVec 8}
  {x y : ArmCore × Int}

theorem Requests.mono {t : Rule × List (BitVec 8)} (hr : Requests [t] c) (ht : t ∈ ts) :
    Requests ts c := by
  obtain ⟨p, hp, hsum, hc⟩ := hr
  rw [← List.mem_singleton.1 hp] at ht
  exact ⟨p, ht, hsum, hc⟩

theorem caused_of_effect (hr : Requests ts c) (he : Effect h.build c x y) :
    Caused h.build ts irqs x y := by
  obtain ⟨k, hk, hchange⟩ := he
  refine ⟨k, ?_, hchange⟩
  cases k with
  | interrupt irq =>
    unfold cause at hk
    split_ifs at hk <;> cases hk
  | step | register | memory => exact ⟨c, hr, hk⟩

theorem cause_of_continues (hc : Continues c) : cause c = some .step := if_pos (.inl hc)

theorem contRound_changes {g : Gdb} (hc : Continues c) :
    Returns (contRound h g) fun r => Effect h.build c g.target r.1.target := by
  refine (returns_lift (singleStep_changes h g (cause_of_continues hc))).bind fun g₁ hstep => ?_
  exact returns_bind fun PC => returns_bind fun position => returns_ok hstep

theorem GdbStep.changes (hs : GdbStep h after s t) (ha : s.Asking ts irqs)
    (hts : ∀ t ∈ ts, t.1 = .packet → IsPacket t.2) :
    t.Asking ts irqs ∧
      ReflTransGen (Caused h.build ts irqs) s.data.gdb.target t.data.gdb.target := by
  have hhead {t : Rule × List (BitVec 8)} {ts' : List (Rule × List (BitVec 8))}
      (hin : s.input = t :: ts') : t ∈ ts ∧ ∀ t' ∈ ts', t' ∈ ts :=
    ⟨ha.input t (by rw [hin]; exact List.mem_cons_self),
      fun t' ht' => ha.input t' (by rw [hin]; exact List.mem_cons_of_mem _ ht')⟩
  have hsame {x y : ArmCore × Int} (hxy : y = x) :
      ReflTransGen (Caused h.build ts irqs) x y := by rw [hxy]
  have hgdb := ha.gdb
  cases hs with
  | finish _ _ hrun =>
    exact ⟨⟨ha.input, ha.irqs, trivial, ha.irq⟩, hsame (returns_lift (handleError_target _) _ hrun)⟩
  | scan hg hin hrun =>
    obtain ⟨ht, hrest⟩ := hhead hin
    rw [hg] at hgdb
    refine ⟨⟨hrest, ha.irqs, ?_, ha.irq⟩, hsame (scan_asks (hts _ ht) _ hrun).1⟩
    rw [hg]
    trivial
  | request _ hin hrun =>
    obtain ⟨ht, hrest⟩ := hhead hin
    obtain ⟨hsame', hasks⟩ := scan_asks (hts _ ht) _ hrun
    exact ⟨⟨hrest, ha.irqs, (hasks _ _ rfl).mono ht, ha.irq⟩, hsame hsame'⟩
  | lock hg _ =>
    rw [hg] at hgdb
    exact ⟨⟨ha.input, ha.irqs, hgdb, ha.irq⟩, .refl⟩
  | call hg hc =>
    rw [hg] at hgdb
    exact ⟨⟨ha.input, ha.irqs, ⟨_, hgdb, hc⟩, ha.irq⟩, .refl⟩
  | handle hg _ hf hrun =>
    rw [hg] at hgdb
    refine ⟨⟨ha.input, ha.irqs, trivial, ha.irq⟩, ?_⟩
    exact ReflTransGen.mono (fun _ _ he => caused_of_effect hgdb he) _ _
      (handler_changes hf _ hrun)
  | round hg hrun =>
    rw [hg] at hgdb
    obtain ⟨c, hr, hc⟩ := hgdb
    refine ⟨⟨ha.input, ha.irqs, ?_, ha.irq⟩, .single (caused_of_effect hr ?_)⟩
    · rw [hg]
      exact ⟨c, hr, hc⟩
    · exact contRound_changes hc _ hrun
  | stop hg hrun hsend =>
    rw [hg] at hgdb
    obtain ⟨c, hr, hc⟩ := hgdb
    refine ⟨⟨ha.input, ha.irqs, trivial, ha.irq⟩, .single (caused_of_effect hr ?_)⟩
    have hkeep := returns_lift (gdbSendData_target _ _) _ hsend
    rw [show (s.data.withGdb _).gdb.target = _ from hkeep]
    exact contRound_changes hc _ hrun
  | unlock => exact ⟨⟨ha.input, ha.irqs, trivial, ha.irq⟩, .refl⟩

theorem IrqStep.changes (hs : IrqStep h s t) (ha : s.Asking ts irqs) :
    t.Asking ts irqs ∧
      ReflTransGen (Caused h.build ts irqs) s.data.gdb.target t.data.gdb.target := by
  have hirq := ha.irq
  cases hs with
  | read _ hin =>
    refine ⟨⟨ha.input, fun irq hi => ha.irqs irq ?_, ha.gdb, ha.irqs _ ?_⟩, .refl⟩
    · rw [hin]
      exact List.mem_cons_of_mem _ hi
    · rw [hin]
      exact List.mem_cons_self
  | lock hq _ =>
    rw [hq] at hirq
    exact ⟨⟨ha.input, ha.irqs, ha.gdb, hirq⟩, .refl⟩
  | raise hq _ hrun =>
    rw [hq] at hirq
    exact ⟨⟨ha.input, ha.irqs, ha.gdb, trivial⟩, .single ⟨.interrupt _, hirq, .interrupt hrun⟩⟩
  | unlock => exact ⟨⟨ha.input, ha.irqs, ha.gdb, trivial⟩, .refl⟩

theorem Process.Step.changes (hs : Process.Step h after s t) (ha : s.Asking ts irqs)
    (hts : ∀ t ∈ ts, t.1 = .packet → IsPacket t.2) :
    t.Asking ts irqs ∧
      ReflTransGen (Caused h.build ts irqs) s.data.gdb.target t.data.gdb.target := by
  obtain ⟨i, hs⟩ | hs := hs.inv
  · cases i with
    | gdb => exact GdbStep.changes hs ha hts
    | irq => exact IrqStep.changes hs ha
  · obtain ⟨-, main, -, rfl, -⟩ := mainThread_inv hs
    exact ⟨⟨ha.input, ha.irqs, ha.gdb, ha.irq⟩, .refl⟩

theorem run_asking {data : ParserData} {input : List (BitVec 8)}
    (hrun : ReflTransGen (Process.Step h after) (Process.start data input irqs) s) :
    s.Asking (scanner.tokens input) irqs ∧
      ReflTransGen (Caused h.build (scanner.tokens input) irqs) data.gdb.target
        s.data.gdb.target := by
  induction hrun with
  | refl => exact ⟨⟨fun t ht => ht, fun irq hi => hi, trivial, trivial⟩, .refl⟩
  | tail _ hs ih =>
    obtain ⟨ha, hch⟩ := ih
    obtain ⟨ha', hch'⟩ := hs.changes ha fun t ht => isPacket_of_mem ht
    exact ⟨ha', hch.trans hch'⟩

end Runs

/-- **Nothing happens to the processor unasked**: in any run of the process, whatever the
threads do in whatever order. -/
theorem run_changes {h : Host} {after : List (Rule × List (BitVec 8)) → List (BitVec 8)}
    {data : ParserData} {input irqs : List (BitVec 8)} {s : Process}
    (hrun : ReflTransGen (Process.Step h after) (Process.start data input irqs) s) :
    ReflTransGen (Caused h.build (scanner.tokens input) irqs) data.gdb.target
      s.data.gdb.target := (run_asking hrun).2

/-- A request `c` without memory, served to its end. -/
theorem run_changes_continue : ∃ s : Process, s.Served ∧
    ReflTransGen (Process.Step .zeros fun _ => []) (Process.start idle (text "$c#63") [1]) s ∧
      ReflTransGen (Caused Host.zeros.build (scanner.tokens (text "$c#63")) [1])
        idle.gdb.target s.data.gdb.target := by
  obtain ⟨s, hserved, hrun⟩ := idle_served [1]
  exact ⟨s, hserved, hrun, run_changes hrun⟩

/-! ## What never happens -/

section Never

variable {b : Build} {ts : List (Rule × List (BitVec 8))} {irqs : List (BitVec 8)}
  {x y : ArmCore × Int} {k : Cause}

/-- What the last step of the debugger may have ended with. -/
def Reported (e : Int) : Prop := e = 0 ∨ e = 255 ∨ e = UNDEFINED_INSTRUCTION

theorem armStep_reported (b : Build) (p : ArmCore) :
    Returns (armStep b p) fun x => Reported x.1 := by
  refine (armExecuteInstruction_harmless b p).bind fun x hx => ?_
  obtain ⟨r, q⟩ := x
  rcases hx with rfl | rfl | rfl
  · exact returns_ok (.inl rfl)
  · exact returns_ok (.inr (.inl rfl))
  · exact returns_ok (.inr (.inr rfl))

theorem Change.reported (hc : Change b k x y) (hx : Reported x.2) : Reported y.2 := by
  cases hc with
  | step hstep => exact armStep_reported _ _ _ hstep
  | register | status | memory | interrupt => exact hx

theorem armException_printed {p : ArmCore} {irq : BitVec 8}
    (hirq : (irq.toNat : Int) ≠ SOFTWARE_INTERRUPT) :
    Returns (armException b p irq) fun x => x.2.printed = p.printed := by
  unfold armException
  rw [if_neg hirq]
  refine returns_ite (fun _ => ?_) fun _ => returns_ok rfl
  rw [armWriteRegister_of_lt (by decide)]
  exact returns_ok rfl

theorem Change.printed (hc : Change b k x y)
    (hk : ∀ irq, k = .interrupt irq → (irq.toNat : Int) ≠ SOFTWARE_INTERRUPT) :
    y.1.printed = x.1.printed := by
  cases hc with
  | step hstep => exact armStep_printed _ _ _ hstep
  | register | status | memory => rfl
  | interrupt hraise => exact armException_printed (hk _ rfl) _ hraise

theorem reported_run (hrun : ReflTransGen (Caused b ts irqs) x y) (hx : Reported x.2) :
    Reported y.2 := by
  induction hrun with
  | refl => exact hx
  | tail _ hc ih =>
    obtain ⟨k, -, hc⟩ := hc
    exact hc.reported ih

theorem printed_run (hrun : ReflTransGen (Caused b ts irqs) x y)
    (hirqs : ∀ irq ∈ irqs, (irq.toNat : Int) ≠ SOFTWARE_INTERRUPT) :
    y.1.printed = x.1.printed := by
  induction hrun with
  | refl => rfl
  | tail _ hc ih =>
    obtain ⟨k, hk, hc⟩ := hc
    have hother (irq : BitVec 8) (hki : k = .interrupt irq) :
        (irq.toNat : Int) ≠ SOFTWARE_INTERRUPT := by
      subst hki
      exact hirqs irq hk
    rw [hc.printed hother, ih]

theorem stopReason_of_reported {g : Gdb} (hg : Reported g.targetException) :
    stopText g.targetException = text "S04" ∨ stopText g.targetException = text "S05" := by
  unfold stopText
  rcases hg with he | he | he <;> rw [he]
  · exact .inr rfl
  · exact .inr rfl
  · exact .inl rfl

end Never

/-- **The simulation never ends**: whatever is loaded and asked for, a debugger is told of an
undefined instruction or of a trap, never of an abort or of the end of the program; and without a
software interrupt from outside `arm_exception` never calls `putchar`. -/
theorem run_never_ends {h : Host} {after : List (Rule × List (BitVec 8)) → List (BitVec 8)}
    {data : ParserData} {input irqs : List (BitVec 8)} {s : Process}
    (hdata : data.gdb.targetException = 0)
    (hrun : ReflTransGen (Process.Step h after) (Process.start data input irqs) s) :
    (stopText s.data.gdb.targetException = text "S04" ∨
        stopText s.data.gdb.targetException = text "S05") ∧
      ((∀ irq ∈ irqs, (irq.toNat : Int) ≠ SOFTWARE_INTERRUPT) →
        s.data.gdb.arm.printed = data.gdb.arm.printed) := by
  obtain ⟨-, hchanges⟩ := run_asking hrun
  have hreported : Reported s.data.gdb.targetException := reported_run hchanges (.inl hdata)
  exact ⟨stopReason_of_reported hreported, printed_run hchanges⟩

/-- A request `c` without memory, which cannot be fetched from. -/
theorem run_never_ends_continue : ∃ s : Process, s.Served ∧
    ReflTransGen (Process.Step .zeros fun _ => []) (Process.start idle (text "$c#63") [1]) s ∧
      (stopText s.data.gdb.targetException = text "S04" ∨
        stopText s.data.gdb.targetException = text "S05") ∧
      s.data.gdb.arm.printed = [] := by
  obtain ⟨s, hserved, hrun⟩ := idle_served [1]
  obtain ⟨hreason, hsilent⟩ := run_never_ends rfl hrun
  exact ⟨s, hserved, hrun, hreason, hsilent (by decide)⟩

end Armator.Sim
