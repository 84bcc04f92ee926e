import Armator.Proof.Listeners

/-!
# Turns

`rests_iff`: where the two listeners rest, the process is where a sequential server can be. That
server scans a whole token and handles its request at one turn, or raises a whole interrupt. No
token and no interrupt is lost, done twice or done out of its order, and nothing comes between
the steps of a request.
-/

namespace Armator.Sim

open Lib Relation

/-! ## Sections -/

section Sections

variable {h : Host} {after : List (Rule × List (BitVec 8)) → List (BitVec 8)} {s s' : Process}
  {i : Listener}

theorem lock_stepOf (hs : Process.StepOf h after i s s') (hd : s.Disciplined) :
    s'.lock = s.lock ∨ (s.lock = none ∧ s'.lock = some i) ∨
      (s.lock = some i ∧ s'.lock = none) := by
  cases i with
  | gdb =>
    cases hs with
    | lock hg hfree => exact .inr (.inl ⟨hfree, rfl⟩)
    | unlock hg => exact .inr (.inr ⟨hd.gdb.1 (by rw [hg]; trivial), rfl⟩)
    | finish | scan | request | call | handle | round | stop => exact .inl rfl
  | irq =>
    cases hs with
    | lock hq hfree => exact .inr (.inl ⟨hfree, rfl⟩)
    | unlock hq => exact .inr (.inr ⟨hd.irq.1 (by rw [hq]; trivial), rfl⟩)
    | read | raise => exact .inl rfl

/-- The listeners, as threads with one lock. -/
def listeners (h : Host) (after : List (Rule × List (BitVec 8)) → List (BitVec 8)) :
    Locked Listener Process where
  holder := Process.lock
  aside i s t := s.Disciplined ∧ Process.StepOf h after i s t ∧ s.lock ≠ some i ∧ t.lock = s.lock
  enter i s t := s.Disciplined ∧ Process.StepOf h after i s t ∧ s.lock = none ∧ t.lock = some i
  work i s t := s.Disciplined ∧ Process.StepOf h after i s t ∧ s.lock = some i ∧ t.lock = some i
  leave i s t := s.Disciplined ∧ Process.StepOf h after i s t ∧ s.lock = some i ∧ t.lock = none
  aside_holder ha := ha.2.2
  enter_holder he := he.2.2
  work_holder hw := hw.2.2
  leave_holder hl := hl.2.2
  before_enter {i j s t u} hij he ha := by
    obtain ⟨hd, hj, hfree, ht⟩ := he
    obtain ⟨-, hi, -, hu⟩ := ha
    obtain ⟨t', hi', hlock, hj'⟩ := stepOf_before hij hd hj ht hi hu
    exact ⟨t', ⟨hd, hi', by rw [hfree]; exact nofun, hlock⟩, disciplined_stepOf hi' hd, hj',
      hlock.trans hfree, hu.trans ht⟩
  before_work {i j s t u} hij hw ha := by
    obtain ⟨hd, hj, hheld, ht⟩ := hw
    obtain ⟨-, hi, -, hu⟩ := ha
    obtain ⟨t', hi', hlock, hj'⟩ := stepOf_before hij hd hj ht hi hu
    refine ⟨t', ⟨hd, hi', ?_, hlock⟩, disciplined_stepOf hi' hd, hj', hlock.trans hheld,
      hu.trans ht⟩
    rw [hheld]
    exact fun hji => hij (Option.some.inj hji).symm

theorem listeners_step (hs : Process.StepOf h after i s s') (hd : s.Disciplined) :
    (listeners h after).Step s s' := by
  refine ⟨i, ?_⟩
  obtain hsame | ⟨hfree, ht⟩ | ⟨hheld, ht⟩ := lock_stepOf hs hd
  · by_cases hi : s.lock = some i
    · exact .inr (.inr (.inl ⟨hd, hs, hi, hsame.trans hi⟩))
    · exact .inl ⟨hd, hs, hi, hsame⟩
  · exact .inr (.inl ⟨hd, hs, hfree, ht⟩)
  · exact .inr (.inr (.inr ⟨hd, hs, hheld, ht⟩))

theorem disciplined_start (data : ParserData) (input irqs : List (BitVec 8)) :
    (Process.start data input irqs).Disciplined :=
  ⟨⟨False.elim, nofun⟩, ⟨False.elim, nofun⟩⟩

theorem main_stepOf (hs : Process.StepOf h after i s s') : s'.main = s.main := by
  cases i with
  | gdb => cases hs <;> rfl
  | irq => cases hs <;> rfl

theorem stepOf_of_step (hs : Process.Step h after s s') (hmain : s'.main = .joining) :
    s.main = .joining ∧ ∃ i, Process.StepOf h after i s s' := by
  cases hs with
  | gdb hlive hs =>
    have hs' : Process.StepOf h after .gdb s s' := gdbListener_iff.1 hs
    exact ⟨(main_stepOf hs').symm.trans hmain, _, hs'⟩
  | irq hlive hs =>
    have hs' : Process.StepOf h after .irq s s' := irqListener_iff.1 hs
    exact ⟨(main_stepOf hs').symm.trans hmain, _, hs'⟩
  | main hs =>
    unfold mainThread at hs
    split at hs
    · split at hs
      · cases hs
        cases hmain
      · cases hs
    · cases hs
      cases hmain
    · cases hs

theorem step_of_stepOf (hs : Process.StepOf h after i s s') (hmain : s.main = .joining) :
    Process.Step h after s s' := by
  have hlive : s.main ≠ .returned := by
    rw [hmain]
    exact nofun
  cases i with
  | gdb => exact .gdb hlive (gdbListener_iff.2 hs)
  | irq => exact .irq hlive (irqListener_iff.2 hs)

theorem listeners_run (hd : s.Disciplined) (hrun : ReflTransGen (Process.Step h after) s s')
    (hmain : s'.main = .joining) :
    ReflTransGen (listeners h after).Step s s' ∧ s'.Disciplined := by
  induction hrun with
  | refl => exact ⟨.refl, hd⟩
  | tail _ hstep ih =>
    obtain ⟨hjoin, i, hs⟩ := stepOf_of_step hstep hmain
    obtain ⟨hrun', hd'⟩ := ih hjoin
    exact ⟨hrun'.tail (listeners_step hs hd'), disciplined_stepOf hs hd'⟩

end Sections

/-! ## The sequential server -/

/-- What a sequential server keeps. -/
structure Sequential where
  data : ParserData
  input : List (Rule × List (BitVec 8))
  irqs : List (BitVec 8)
  /-- The end of the input has been met. -/
  closed : Bool

/-- A turn of it. -/
inductive Turn (h : Host) (after : List (Rule × List (BitVec 8)) → List (BitVec 8))
    (m : Sequential) : Sequential → Prop where
  | token {t : Rule × List (BitVec 8)} {ts : List (Rule × List (BitVec 8))} {steps : Nat}
      {data : ParserData} : m.closed = false → m.input = t :: ts →
      action h steps (after (t :: ts)) m.data t = .ok data →
      Turn h after m { m with data := data, input := ts }
  | close {data : ParserData} : m.closed = false → m.input = [] →
      lift (handleError m.data) = .ok data → Turn h after m { m with data := data, closed := true }
  | interrupt {irq : BitVec 8} {irqs : List (BitVec 8)} {r : Int} {arm : ArmCore} :
      m.irqs = irq :: irqs → armException h.build m.data.gdb.arm irq = .ok (r, arm) →
      Turn h after m { m with data := m.data.withArm arm, irqs := irqs }

/-- The process, with both listeners at rest. -/
def Sequential.process (m : Sequential) : Process where
  data := m.data
  input := m.input
  irqs := m.irqs
  gdb := if m.closed then .exited else .scanning
  irq := .reading
  main := .joining
  lock := none

/-! ## What a section comes to -/

/-- Where the handling of a request that began with `g₀` has come to. -/
inductive Working (h : Host) (g₀ : Gdb) (index : BitVec 8) (p : Pointer) :
    GdbPoint → Gdb → Prop where
  | handling : Working h g₀ index p (.handling index p) g₀
  | continuing {g : Gdb} {n : Nat} : Continues index →
      (∀ k, contLoop h (k + n) g₀ = contLoop h k g) → Working h g₀ index p .continuing g
  | unlocking {g : Gdb} {f : Handler} {steps : Nat} : handler index = some f →
      f h steps g₀ p = .ok g → Working h g₀ index p .unlocking g

section Handling

variable {h : Host} {after : List (Rule × List (BitVec 8)) → List (BitVec 8)} {s t : Process}
  {g g₀ : Gdb} {index : BitVec 8} {p : Pointer} {n : Nat}

/-- The process `s` inside the section of `gdb_listener`. -/
def Process.inside (s : Process) (point : GdbPoint) (g : Gdb) : Process :=
  { s with data := s.data.withGdb g, gdb := point, lock := some .gdb }

theorem contLoop_next {g' : Gdb} (hround : contRound h g = .ok (g', false))
    (hloop : ∀ k, contLoop h (k + n) g₀ = contLoop h k g) (k : Nat) :
    contLoop h (k + (n + 1)) g₀ = contLoop h k g' := by
  calc contLoop h (k + (n + 1)) g₀
      = contLoop h (k + 1 + n) g₀ := by rw [Nat.add_right_comm, Nat.add_assoc]
    _ = contLoop h (k + 1) g := hloop (k + 1)
    _ = contLoop h k g' := by
      rw [contLoop_round, hround]
      rfl

theorem contLoop_last {g' : Gdb} (hround : contRound h g = .ok (g', true))
    (hloop : ∀ k, contLoop h (k + n) g₀ = contLoop h k g) : contLoop h (1 + n) g₀ = .ok g' := by
  rw [hloop 1, contLoop_round, hround]
  rfl

theorem handler_cont (hc : Continues index) :
    ∃ f, handler index = some f ∧ ∀ h steps g p, f h steps g p = cont h steps g p := by
  obtain hf | hf := handler_continues hc
  · exact ⟨cont, hf, fun _ _ _ _ => rfl⟩
  · exact ⟨contWithSignal, hf, fun _ _ _ _ => rfl⟩

theorem Working.step {point : GdbPoint} (hw : Working h g₀ index p point g)
    (hs : GdbStep h after (s.inside point g) t) (ht : t.lock = some .gdb) :
    ∃ point' g', t = s.inside point' g' ∧ Working h g₀ index p point' g' := by
  cases hw with
  | handling =>
    cases hs with
    | call hg hc =>
      cases hg
      exact ⟨.continuing, g, rfl, .continuing (n := 0) hc fun _ => rfl⟩
    | handle hg hc hf hrun =>
      cases hg
      exact ⟨.unlocking, _, rfl, .unlocking hf hrun⟩
    | finish hg | scan hg | request hg | lock hg | round hg | stop hg | unlock hg => cases hg
  | @continuing _ n hc hloop =>
    cases hs with
    | round hg hround =>
      exact ⟨.continuing, _, rfl, .continuing hc (contLoop_next hround hloop)⟩
    | @stop _ g' hg hround hsend =>
      obtain ⟨f, hf, hcont⟩ := handler_cont hc
      have hdone : f h (1 + n) g₀ p = .ok g' := by
        rw [hcont, cont, contLoop_last hround hloop]
        exact hsend
      exact ⟨.unlocking, g', rfl, .unlocking hf hdone⟩
    | finish hg | scan hg | request hg | lock hg | call hg | handle hg | unlock hg => cases hg
  | unlocking hf hrun =>
    cases hs with
    | unlock hg => cases ht
    | finish hg | scan hg | request hg | lock hg | call hg | handle hg | round hg | stop hg =>
      cases hg

/-- An open section of `gdb_listener` is at some point of the handling. -/
theorem working_of_open (hopen : (listeners h after).Open .gdb s t) :
    ∃ index p, s.gdb = .locking index p ∧ ∃ point g, t = s.inside point g ∧
      Working h (s.data.gdb.record .lock) index p point g := by
  obtain ⟨a, ⟨-, henter, hfree, ha⟩, hrun⟩ := hopen
  have hlock : ∃ index p, s.gdb = .locking index p ∧
      a = s.inside (.handling index p) (s.data.gdb.record .lock) := by
    cases henter with
    | lock hg _ => exact ⟨_, _, hg, rfl⟩
    | unlock hg => cases ha
    | finish | scan | request | call | handle | round | stop =>
      rw [show s.lock = some Listener.gdb from ha] at hfree
      cases hfree
  obtain ⟨index, p, hg, rfl⟩ := hlock
  refine ⟨index, p, hg, ?_⟩
  induction hrun with
  | refl => exact ⟨_, _, rfl, .handling⟩
  | tail _ hwork ih =>
    obtain ⟨point, g, rfl, hw⟩ := ih
    obtain ⟨-, hs, -, ht⟩ := hwork
    exact hw.step hs ht

/-- A whole section of `gdb_listener` handles the request. -/
theorem handled_of_section (hsec : (listeners h after).Section .gdb s t) :
    ∃ index p steps, s.gdb = .locking index p ∧
      handled h steps s.data (index, p) = .ok t.data ∧
      t = { s with data := t.data, gdb := .scanning, lock := none } := by
  obtain ⟨a, hopen, -, hleave, -, hfree⟩ := hsec
  obtain ⟨index, p, hg, point, g, rfl, hw⟩ := working_of_open hopen
  cases hleave with
  | unlock hpoint =>
    cases hw with
    | @unlocking _ f steps hf hrun =>
      refine ⟨index, p, steps, hg, ?_, rfl⟩
      unfold handled
      rw [hf]
      dsimp only
      rw [hrun]
      rfl
    | handling | continuing => cases hpoint
  | finish | scan | request | lock | call | handle | round | stop => cases hfree

theorem raised_of_section (hsec : (listeners h after).Section .irq s t) :
    ∃ irq r arm, s.irq = .locking irq ∧ armException h.build s.data.gdb.arm irq = .ok (r, arm) ∧
      t = { s with data := s.data.withArm arm, irq := .reading, lock := none } := by
  obtain ⟨a, ⟨b, ⟨-, henter, hfree, hb⟩, hrun⟩, -, hleave, -, ht⟩ := hsec
  have hlock : ∃ irq, s.irq = .locking irq ∧
      b = { s with irq := .raising irq, lock := some .irq } := by
    cases henter with
    | lock hq _ => exact ⟨_, hq, rfl⟩
    | unlock hq => cases hb
    | read | raise =>
      rw [show s.lock = some Listener.irq from hb] at hfree
      cases hfree
  obtain ⟨irq, hq, rfl⟩ := hlock
  have hwork : a = { s with irq := .raising irq, lock := some .irq } ∨ ∃ r arm,
      armException h.build s.data.gdb.arm irq = .ok (r, arm) ∧
      a = { s with data := s.data.withArm arm, irq := .unlocking, lock := some .irq } := by
    clear hleave
    induction hrun with
    | refl => exact .inl rfl
    | tail _ hwork ih =>
      obtain ⟨-, hs, -, hc⟩ := hwork
      obtain rfl | ⟨r, arm, hraise, rfl⟩ := ih
      · cases hs with
        | raise hp _ hraise =>
          cases hp
          exact .inr ⟨_, _, hraise, rfl⟩
        | read hp | lock hp | unlock hp => cases hp
      · cases hs with
        | unlock => cases hc
        | read hp | lock hp | raise hp => cases hp
  obtain rfl | ⟨r, arm, hraise, rfl⟩ := hwork
  · cases hleave with
    | unlock hp => cases hp
    | read | lock | raise => cases ht
  · cases hleave with
    | unlock hp => exact ⟨irq, r, arm, hq, hraise, rfl⟩
    | read hp | lock hp | raise hp => cases hp

end Handling

/-! ## From the process to turns -/

/-- What `gdb_listener` has done of the next turn. -/
def Caught (h : Host) (after : List (Rule × List (BitVec 8)) → List (BitVec 8)) (m : Sequential)
    (s : Process) : Prop :=
  match s.gdb with
  | .scanning => m.closed = false ∧ m.data = s.data ∧ m.input = s.input
  | .locking index p => m.closed = false ∧ ∃ t, m.input = t :: s.input ∧
      scan h (after m.input) m.data t = .ok (s.data, some (index, p))
  | .exited => m.closed = true ∧ m.data = s.data ∧ m.input = s.input
  | _ => False

/-- The interrupts that are not raised yet. -/
def Process.pending (s : Process) : List (BitVec 8) :=
  match s.irq with
  | .locking irq | .raising irq => irq :: s.irqs
  | _ => s.irqs

section Forth

variable {h : Host} {after : List (Rule × List (BitVec 8)) → List (BitVec 8)} {s t : Process}
  {m : Sequential} {i : Listener}

theorem Caught.arm (hc : Caught h after m s) : s.data.gdb.arm = m.data.gdb.arm := by
  unfold Caught at hc
  split at hc
  · rw [hc.2.1]
  · obtain ⟨-, t, -, hscan⟩ := hc
    exact scan_arm hscan
  · rw [hc.2.1]
  · exact hc.elim

/-- An interrupt may come before what is scanned. -/
theorem Caught.withArm (hc : Caught h after m s) (arm : ArmCore) (irqs : List (BitVec 8))
    (irq : IrqPoint) : Caught h after { m with data := m.data.withArm arm, irqs := irqs }
      { s with data := s.data.withArm arm, irq := irq, lock := none } := by
  unfold Caught at hc ⊢
  cases hg : s.gdb with
  | scanning | exited =>
    rw [hg] at hc
    obtain ⟨hclosed, hdata, hinput⟩ := hc
    exact ⟨hclosed, by rw [hdata], hinput⟩
  | locking index p =>
    rw [hg] at hc
    obtain ⟨hclosed, t, hinput, hscan⟩ := hc
    exact ⟨hclosed, t, hinput, scan_withArm hscan arm⟩
  | handling | continuing | unlocking =>
    rw [hg] at hc
    exact hc.elim

/-- A step aside of `gdb_listener`: a turn, or part of one. -/
theorem Caught.scan (hc : Caught h after m s) (hs : GdbStep h after s t)
    (hlock : t.lock = s.lock) :
    ∃ m', ReflTransGen (Turn h after) m m' ∧ m'.irqs = m.irqs ∧ Caught h after m' t := by
  unfold Caught at hc
  cases hs with
  | finish hg hi hrun =>
    rw [hg] at hc
    obtain ⟨hclosed, hdata, hinput⟩ := hc
    rw [← hdata] at hrun
    exact ⟨_, .single (.close hclosed (hinput.trans hi) hrun), rfl, rfl, rfl, hinput⟩
  | @scan tok ts data hg hi hrun =>
    rw [hg] at hc
    obtain ⟨hclosed, hdata, hinput⟩ := hc
    have haction : action h 0 (after (tok :: ts)) m.data tok = .ok data := by
      rw [action_eq, hdata, hrun]
      rfl
    refine ⟨_, .single (.token hclosed (hinput.trans hi) haction), rfl, ?_⟩
    unfold Caught
    dsimp only
    rw [hg]
    exact ⟨hclosed, rfl, rfl⟩
  | @request tok ts data index p hg hi hrun =>
    rw [hg] at hc
    obtain ⟨hclosed, hdata, hinput⟩ := hc
    refine ⟨m, .refl, rfl, hclosed, tok, hinput.trans hi, ?_⟩
    rw [hinput, hi, hdata]
    exact hrun
  | lock hg hfree =>
    rw [hfree] at hlock
    cases hlock
  | call hg | handle hg | round hg | stop hg | unlock hg =>
    rw [hg] at hc
    exact hc.elim

theorem Caught.serial (hc : Caught h after m s) (hirqs : m.irqs = s.pending)
    (hlock : s.lock = none) (hs : (listeners h after).Serial s t) :
    ∃ m', ReflTransGen (Turn h after) m m' ∧ m'.irqs = t.pending ∧ Caught h after m' t ∧
      t.lock = none := by
  obtain ⟨i, haside | hsec⟩ := hs
  · obtain ⟨hd, hs, -, ht⟩ := haside
    cases i with
    | gdb =>
      obtain ⟨m', hrun, hsame, hc'⟩ := hc.scan hs ht
      refine ⟨m', hrun, ?_, hc', ht.trans hlock⟩
      rw [hsame, hirqs]
      unfold Process.pending
      obtain ⟨hq, hi⟩ : s.irq = t.irq ∧ s.irqs = t.irqs := by cases hs <;> exact ⟨rfl, rfl⟩
      rw [hq, hi]
    | irq =>
      have hout : ¬ s.irq.Inside := by
        rw [hd.irq, hlock]
        exact nofun
      obtain ⟨hq, irq, irqs, hi, rfl⟩ := IrqStep.reading hs hout ht
      refine ⟨m, .refl, ?_, hc, hlock⟩
      rw [hirqs, Process.pending, hq]
      exact hi
  · cases i with
    | gdb =>
      obtain ⟨index, p, steps, hg, hrun, hframe⟩ := handled_of_section hsec
      unfold Caught at hc
      rw [hg] at hc
      obtain ⟨hclosed, tok, hinput, hscan⟩ := hc
      have haction : action h steps (after (tok :: s.input)) m.data tok = .ok t.data := by
        rw [← hinput, action_eq, hscan]
        exact hrun
      refine ⟨_, .single (.token hclosed hinput haction), ?_, ?_, by rw [hframe]⟩
      · rw [hframe]
        exact hirqs
      · rw [hframe]
        exact ⟨hclosed, rfl, rfl⟩
    | irq =>
      obtain ⟨irq, r, arm, hq, hraise, rfl⟩ := raised_of_section hsec
      rw [Process.pending, hq] at hirqs
      rw [hc.arm] at hraise
      exact ⟨_, .single (.interrupt hirqs hraise), rfl, hc.withArm arm s.irqs .reading, rfl⟩

theorem caught_start (data : ParserData) (input irqs : List (BitVec 8)) :
    Caught h after ⟨data, scanner.tokens input, irqs, false⟩ (Process.start data input irqs) :=
  ⟨rfl, rfl, rfl⟩

/-- A run of the listeners that ends outside of their sections is a run of turns, and what is
caught of the next. -/
theorem turns_of_run {data : ParserData} {input irqs : List (BitVec 8)}
    (hrun : ReflTransGen (listeners h after).Step (Process.start data input irqs) s)
    (hfree : s.lock = none) :
    ∃ m, ReflTransGen (Turn h after) ⟨data, scanner.tokens input, irqs, false⟩ m ∧
      m.irqs = s.pending ∧ Caught h after m s := by
  obtain ⟨s', hserial, hred⟩ := Locked.reduced_of_run rfl hrun
  obtain ⟨-, rfl⟩ | ⟨i, hopen⟩ := hred
  · have hall : ∃ m, ReflTransGen (Turn h after) ⟨data, scanner.tokens input, irqs, false⟩ m ∧
        m.irqs = s'.pending ∧ Caught h after m s' ∧ s'.lock = none := by
      clear hrun hfree
      induction hserial with
      | refl => exact ⟨_, .refl, rfl, caught_start data input irqs, rfl⟩
      | tail _ hs ih =>
        obtain ⟨m, hturns, hirqs, hc, hlock⟩ := ih
        obtain ⟨m', hturn, hirqs', hc', hlock'⟩ := hc.serial hirqs hlock hs
        exact ⟨m', hturns.trans hturn, hirqs', hc', hlock'⟩
    obtain ⟨m, hturns, hirqs, hc, -⟩ := hall
    exact ⟨m, hturns, hirqs, hc⟩
  · have hheld : s.lock = some i := hopen.holder.2
    rw [hfree] at hheld
    cases hheld

end Forth

/-! ## From turns to the process -/

section Back

variable {h : Host} {after : List (Rule × List (BitVec 8)) → List (BitVec 8)} {s : Process}
  {m m' : Sequential} {index : BitVec 8} {p : Pointer}

/-- Any number of steps of `gdb_listener`. -/
abbrev GdbRun (h : Host) (after : List (Rule × List (BitVec 8)) → List (BitVec 8)) :
    Process → Process → Prop :=
  ReflTransGen (GdbStep h after)

/-- The loop of `cont`, as steps: an induction on the rounds it makes. -/
theorem run_contLoop {steps : Nat} {g g' gdb : Gdb} (hloop : contLoop h steps g = .ok g')
    (hsend : lift (gdbSendStopReason g') = .ok gdb) :
    GdbRun h after (s.inside .continuing g) (s.inside .unlocking gdb) := by
  induction steps generalizing g with
  | zero => cases hloop
  | succ n ih =>
    rw [contLoop_round] at hloop
    obtain ⟨⟨g₁, stop⟩, hround, hrest⟩ := exists_of_bind hloop
    cases stop with
    | true =>
      cases hrest
      exact .single (.stop rfl hround hsend)
    | false => exact .head (.round rfl hround) (ih hrest)

theorem run_handled {steps : Nat} {f : Handler} {g gdb : Gdb} (hf : handler index = some f)
    (hrun : f h steps g p = .ok gdb) :
    GdbRun h after (s.inside (.handling index p) g) (s.inside .unlocking gdb) := by
  by_cases hc : Continues index
  · obtain ⟨f', hf', hcont⟩ := handler_cont hc
    rw [hf] at hf'
    cases hf'
    rw [hcont] at hrun
    obtain ⟨g', hloop, hsend⟩ := exists_of_bind hrun
    exact .head (.call rfl hc) (run_contLoop hloop hsend)
  · rw [handler_steps hf hc] at hrun
    exact .single (.handle rfl hc hf hrun)

theorem scan_handler {bytes : List (BitVec 8)} {data data' : ParserData}
    {t : Rule × List (BitVec 8)} (hs : scan h bytes data t = .ok (data', some (index, p))) :
    ∃ f, handler index = some f := by
  obtain ⟨rule, text⟩ := t
  cases rule with
  | packet =>
    obtain ⟨d, -, hs⟩ := exists_of_bind hs
    obtain ⟨⟨gdb, request⟩, hrequest, hok⟩ := exists_of_bind hs
    cases hok
    obtain ⟨⟨i, accepted⟩, -, hrequest⟩ := exists_of_bind hrequest
    cases accepted with
    | false => cases hrequest
    | true =>
      obtain ⟨stored, -, hrequest⟩ := exists_of_bind hrequest
      obtain ⟨c, -, hrequest⟩ := exists_of_bind hrequest
      cases hf : handler c with
      | some f =>
        rw [hf] at hrequest
        cases hrequest
        exact ⟨f, hf⟩
      | none =>
        rw [hf] at hrequest
        obtain ⟨g, -, hok⟩ := exists_of_bind hrequest
        cases hok
  | ack | nack | other | dflt =>
    obtain ⟨d, -, hok⟩ := exists_of_bind hs
    cases hok

theorem GdbRun.steps {t : Process} (hrun : GdbRun h after s t) (hmain : s.main = .joining) :
    ReflTransGen (Process.Step h after) s t ∧ t.main = .joining := by
  induction hrun with
  | refl => exact ⟨.refl, hmain⟩
  | tail _ hs ih =>
    obtain ⟨hrun', hjoin⟩ := ih
    have hs' : Process.StepOf h after .gdb _ _ := hs
    exact ⟨hrun'.tail (step_of_stepOf hs' hjoin), (main_stepOf hs').trans hjoin⟩

theorem run_turn (ht : Turn h after m m') :
    ReflTransGen (Process.Step h after) m.process m'.process := by
  cases ht with
  | @token t ts steps data hclosed hinput haction =>
    have hscanning : m.process.gdb = .scanning := if_neg (by rw [hclosed]; exact nofun)
    rw [action_eq] at haction
    obtain ⟨⟨d, request⟩, hscan, hrest⟩ := exists_of_bind haction
    cases request with
    | none =>
      cases hrest
      exact (GdbRun.steps (.single (.scan hscanning hinput hscan)) rfl).1
    | some r =>
      obtain ⟨index, p⟩ := r
      obtain ⟨f, hf⟩ := scan_handler hscan
      dsimp only at hrest
      unfold handled at hrest
      rw [hf] at hrest
      obtain ⟨gdb, hrun, hok⟩ := exists_of_bind hrest
      cases hok
      refine (GdbRun.steps ?_ rfl).1
      refine .head (.request hscanning hinput hscan) (.head (.lock rfl rfl) ?_)
      refine (run_handled hf hrun).tail ?_
      have hback : ({ m with data := d.withGdb (gdb.record .unlock), input := ts } :
          Sequential).process = { m.process with
            data := d.withGdb (gdb.record .unlock), input := ts, gdb := .scanning } := by
        unfold Sequential.process
        rw [hclosed]
        rfl
      rw [hback]
      exact .unlock rfl
  | close hclosed hinput hrun =>
    have hscanning : m.process.gdb = .scanning := if_neg (by rw [hclosed]; exact nofun)
    exact (GdbRun.steps (.single (.finish hscanning hinput hrun)) rfl).1
  | @interrupt irq irqs r arm hirqs hraise =>
    have hsafe : ¬ (MainPoint.joining ≠ .joining ∧ UsesCore irq) := fun hc => hc.1 rfl
    have hstep {s t : Process} (hs : IrqStep h s t) (hmain : s.main = .joining) :
        Process.Step h after s t := step_of_stepOf (i := .irq) hs hmain
    refine .head (hstep (.read rfl hirqs) rfl) ?_
    refine .head (hstep (.lock rfl rfl) rfl) ?_
    refine .head (hstep (.raise rfl hsafe hraise) rfl) ?_
    exact .single (hstep (.unlock rfl) rfl)

theorem run_turns (hturns : ReflTransGen (Turn h after) m m') :
    ReflTransGen (Process.Step h after) m.process m'.process := by
  induction hturns with
  | refl => exact .refl
  | tail _ ht ih => exact ih.trans (run_turn ht)

end Back

section Rests

variable {h : Host} {after : List (Rule × List (BitVec 8)) → List (BitVec 8)}
  {data : ParserData} {input irqs : List (BitVec 8)} {m m' : Sequential}

theorem Caught.process (hc : Caught h after m' m.process) (hirqs : m'.irqs = m.irqs) : m' = m := by
  obtain ⟨data', input', irqs', closed'⟩ := m'
  obtain ⟨data, input, irqs, closed⟩ := m
  cases closed with
  | true | false =>
    obtain ⟨hclosed, hdata, hinput⟩ := hc
    cases hclosed
    cases hdata
    cases hinput
    cases hirqs
    rfl

theorem turns_of_rests
    (hrun : ReflTransGen (Process.Step h after) (Process.start data input irqs) m.process) :
    ReflTransGen (Turn h after) ⟨data, scanner.tokens input, irqs, false⟩ m := by
  obtain ⟨hrun', -⟩ := listeners_run (disciplined_start data input irqs) hrun rfl
  obtain ⟨m', hturns, hirqs, hc⟩ := turns_of_run hrun' rfl
  rw [← hc.process hirqs]
  exact hturns

end Rests

/-- Where both listeners rest, and `main` still waits, the process is where a sequential server
can be that takes whole turns. -/
theorem rests_iff (h : Host) (after : List (Rule × List (BitVec 8)) → List (BitVec 8))
    (data : ParserData) (input irqs : List (BitVec 8)) (m : Sequential) :
    ReflTransGen (Process.Step h after) (Process.start data input irqs) m.process ↔
      ReflTransGen (Turn h after) ⟨data, scanner.tokens input, irqs, false⟩ m :=
  ⟨turns_of_rests, run_turns⟩

end Armator.Sim
