import Armator.Proof.Continue
import Armator.Proof.Turns

/-!
# Interrupts and the session

What `irq_listener` does to a session of the debugger. Most interrupts do nothing to the
processor, so that the session ends as `yylex` alone ends it, however the listeners interleave.
An interrupt that comes while `cont` runs is raised only when the loop stops. And `main` destroys
the processor while `irq_listener` still runs, which may then use it.
-/

namespace Armator.Sim

open Lib Relation

/-! ## Interrupts that leave the processor alone -/

section Plain

variable {h : Host} {after : List (Rule × List (BitVec 8)) → List (BitVec 8)} {m m' : Sequential}
  {irqs : List (BitVec 8)}

theorem armException_plain {b : Build} {p : ArmCore} {code : BitVec 8} (hplain : ¬ UsesCore code) :
    armException b p code = .ok ((code.toNat : Int), p) := by
  unfold armException
  rw [if_neg fun hc => hplain (.inl hc), if_neg fun hc => hplain (.inr hc)]

/-- Without its interrupts. -/
def Sequential.quiet (m : Sequential) : Sequential := { m with irqs := [] }

theorem Turn.quiet (ht : Turn h after m m') (hplain : ∀ irq ∈ m.irqs, ¬ UsesCore irq) :
    m'.irqs <:+ m.irqs ∧ ReflTransGen (Turn h after) m.quiet m'.quiet := by
  cases ht with
  | token hclosed hinput haction =>
    exact ⟨List.suffix_refl _, .single (.token hclosed hinput haction)⟩
  | close hclosed hinput hrun => exact ⟨List.suffix_refl _, .single (.close hclosed hinput hrun)⟩
  | @interrupt irq irqs r arm hirqs hraise =>
    rw [armException_plain (hplain irq (by rw [hirqs]; exact .head irqs))] at hraise
    cases hraise
    exact ⟨⟨[irq], hirqs.symm⟩, .refl⟩

theorem turns_quiet (ht : ReflTransGen (Turn h after) m m')
    (hplain : ∀ irq ∈ m.irqs, ¬ UsesCore irq) :
    m'.irqs <:+ m.irqs ∧ ReflTransGen (Turn h after) m.quiet m'.quiet := by
  induction ht with
  | refl => exact ⟨List.suffix_refl _, .refl⟩
  | tail _ ht ih =>
    obtain ⟨hsuffix, hrun⟩ := ih
    obtain ⟨hsuffix', hrun'⟩ := ht.quiet fun irq hirq => hplain irq (hsuffix.mem hirq)
    exact ⟨hsuffix'.trans hsuffix, hrun.trans hrun'⟩

theorem turns_raise {irqs' : List (BitVec 8)} (hplain : ∀ irq ∈ irqs, ¬ UsesCore irq)
    (hsuffix : irqs' <:+ irqs) :
    ReflTransGen (Turn h after) { m with irqs := irqs } { m with irqs := irqs' } := by
  obtain ⟨raised, rfl⟩ := hsuffix
  induction raised with
  | nil => exact .refl
  | cons irq raised ih =>
    have hraise : Turn h after { m with irqs := irq :: (raised ++ irqs') }
        { m with irqs := raised ++ irqs' } :=
      .interrupt rfl (armException_plain (hplain irq (.head _)))
    exact .head hraise (ih fun irq hirq => hplain irq (.tail _ hirq))

end Plain

/-! ## The session alone -/

section Alone

variable {h : Host} {after : List (Rule × List (BitVec 8)) → List (BitVec 8)} {m : Sequential}
  {g g' : Gdb} {n : Nat} {data data' : ParserData}

theorem contLoop_add (hrun : contLoop h n g = .ok g') (k : Nat) :
    contLoop h (n + k) g = .ok g' := by
  induction n generalizing g with
  | zero => cases hrun
  | succ n ih =>
    rw [contLoop_round] at hrun
    obtain ⟨⟨g₁, stop⟩, hround, hrest⟩ := exists_of_bind hrun
    rw [Nat.add_right_comm, contLoop_round, hround]
    cases stop with
    | true => exact hrest
    | false => exact ih hrest

theorem action_add {bytes : List (BitVec 8)} {t : Rule × List (BitVec 8)}
    (hrun : action h n bytes data t = .ok data') (k : Nat) :
    action h (n + k) bytes data t = .ok data' := by
  rw [action_eq] at hrun ⊢
  obtain ⟨⟨d, request⟩, hscan, hrest⟩ := exists_of_bind hrun
  rw [hscan]
  cases request with
  | none => exact hrest
  | some r =>
    obtain ⟨index, p⟩ := r
    obtain ⟨f, hf⟩ := scan_handler hscan
    dsimp only [ok_bind] at hrest ⊢
    unfold handled at hrest ⊢
    rw [hf] at hrest ⊢
    obtain ⟨gdb, hgdb, hok⟩ := exists_of_bind hrest
    have hmore : f h (n + k) (d.gdb.record .lock) p = .ok gdb := by
      by_cases hc : Continues index
      · obtain ⟨f', hf', hcont⟩ := handler_cont hc
        rw [hf] at hf'
        cases hf'
        rw [hcont] at hgdb ⊢
        obtain ⟨g', hloop, hsend⟩ := exists_of_bind hgdb
        rw [cont, contLoop_add hloop k]
        exact hsend
      · rw [handler_steps hf hc] at hgdb ⊢
        exact hgdb
    dsimp only
    rw [hmore]
    exact hok

theorem actions_add {ts : List (Rule × List (BitVec 8))}
    (hrun : actions h n after ts data = .ok data') (k : Nat) :
    actions h (n + k) after ts data = .ok data' := by
  induction ts generalizing data with
  | nil => exact hrun
  | cons t ts ih =>
    obtain ⟨d, haction, hrest⟩ := exists_of_bind hrun
    rw [actions, action_add haction k]
    exact ih hrest

theorem not_turn {m' : Sequential} (hirqs : m.irqs = []) (hclosed : m.closed = true) :
    ¬ Turn h after m m' := by
  intro ht
  cases ht with
  | token hopen | close hopen =>
    rw [hclosed] at hopen
    cases hopen
  | interrupt hsome =>
    rw [hirqs] at hsome
    cases hsome

/-- The turns of a session up to its end do what `yylex` does on the rest of the input. -/
theorem actions_of_turns
    (ht : ReflTransGen (Turn h after) m ⟨data', [], [], true⟩) (hirqs : m.irqs = [])
    (hclosed : m.closed = false) :
    ∃ steps d, actions h steps after m.input m.data = .ok d ∧ lift (handleError d) = .ok data' := by
  induction ht using ReflTransGen.head_induction_on with
  | refl => cases hclosed
  | head ht hrest ih =>
    cases ht with
    | @token t ts steps d _ hinput haction =>
      obtain ⟨steps', d', hactions, hend⟩ := ih hirqs hclosed
      refine ⟨steps + steps', d', ?_, hend⟩
      rw [hinput, actions, action_add haction, Nat.add_comm]
      exact actions_add hactions steps
    | @close d _ hinput hclose =>
      refine ⟨0, _, by rw [hinput]; rfl, ?_⟩
      obtain hsame | ⟨c, hturn, -⟩ := hrest.cases_head
      · rw [hclose]
        exact congrArg (fun m : Sequential => (.ok m.data : Except Halt ParserData)) hsame
      · exact absurd hturn (not_turn hirqs rfl)
    | interrupt hsome =>
      rw [hirqs] at hsome
      cases hsome

theorem turns_of_actions {steps : Nat} {ts : List (Rule × List (BitVec 8))} {d : ParserData}
    (hrun : actions h steps after ts data = .ok d) (hend : lift (handleError d) = .ok data')
    (irqs : List (BitVec 8)) :
    ReflTransGen (Turn h after) ⟨data, ts, irqs, false⟩ ⟨data', [], irqs, true⟩ := by
  induction ts generalizing data with
  | nil =>
    cases hrun
    exact .single (.close rfl rfl hend)
  | cons t ts ih =>
    obtain ⟨d', haction, hrest⟩ := exists_of_bind hrun
    exact .head (.token rfl rfl haction) (ih hrest)

theorem yylex_of_ends {input irqs irqs' : List (BitVec 8)} (hplain : ∀ irq ∈ irqs, ¬ UsesCore irq)
    (hrun : ReflTransGen (Process.Step h after) (Process.start data input irqs)
      (Sequential.process ⟨data', [], irqs', true⟩)) :
    irqs' <:+ irqs ∧ ∃ steps, yylex h steps after data input = .ok data' := by
  obtain ⟨hsuffix, hquiet⟩ := turns_quiet (turns_of_rests hrun) hplain
  obtain ⟨steps, d, hactions, hend⟩ := actions_of_turns hquiet rfl rfl
  have hactions' : actions h steps after (scanner.tokens input) data = .ok d := hactions
  refine ⟨hsuffix, steps, ?_⟩
  rw [yylex, hactions']
  exact hend

theorem ends_of_yylex {steps : Nat} {input irqs irqs' : List (BitVec 8)}
    (hplain : ∀ irq ∈ irqs, ¬ UsesCore irq) (hsuffix : irqs' <:+ irqs)
    (hrun : yylex h steps after data input = .ok data') :
    ReflTransGen (Process.Step h after) (Process.start data input irqs)
      (Sequential.process ⟨data', [], irqs', true⟩) := by
  obtain ⟨d, hactions, hend⟩ := exists_of_bind hrun
  have hturns := (turns_of_actions hactions hend irqs).trans
    (turns_raise (m := ⟨data', [], [], true⟩) hplain hsuffix)
  exact run_turns hturns

end Alone

/-- With interrupts that leave the processor alone the session ends as `yylex` alone ends it,
whatever the interleaving. -/
theorem ends_iff_yylex (h : Host) (after : List (Rule × List (BitVec 8)) → List (BitVec 8))
    (data data' : ParserData) (input irqs irqs' : List (BitVec 8))
    (hplain : ∀ irq ∈ irqs, ¬ UsesCore irq) :
    ReflTransGen (Process.Step h after) (Process.start data input irqs)
        (Sequential.process ⟨data', [], irqs', true⟩) ↔
      irqs' <:+ irqs ∧ ∃ steps, yylex h steps after data input = .ok data' :=
  ⟨yylex_of_ends hplain, fun ⟨hsuffix, _, hrun⟩ => ends_of_yylex hplain hsuffix hrun⟩

/-- What is written for a request that is answered by a trap. -/
def trapReply : List Event :=
  [.byte (char '+'), .lock] ++ (frame (text "S05")).map .byte ++ [.unlock]

theorem yylex_reason : ∃ data', data'.gdb.events = trapReply ∧
    yylex .zeros 0 (fun _ => []) idle (text "$?#3f") = .ok data' := by
  have htokens : scanner.tokens (text "$?#3f") = [(.packet, text "$?#3f")] :=
    Lexer.tokens_of_accepts (by decide) (by decide)
  obtain ⟨p, hp⟩ := stopReason_sent idle.gdb.begun
  have hcall : gdbPacketAnalysis .zeros 0 idle.gdb
      (yytext (packetText (text "?") (char '3') (char 'f')) [])
      (packetText (text "?") (char '3') (char 'f')).length =
      .ok ((idle.gdb.begun.sent p (text "S05")).record .unlock) := by
    rw [gdbPacketAnalysis_accepted (by decide) (by decide) (by decide), handed_some rfl]
    change (lift (gdbSendStopReason idle.gdb.begun) >>= _) = _
    rw [hp]
    rfl
  have htext : packetText (text "?") (char '3') (char 'f') = text "$?#3f" := by decide
  have hlen : idle.len = 0 := rfl
  have haction := action_packet hlen hcall
  rw [htext] at haction
  refine ⟨idle.withGdb ((idle.gdb.begun.sent p (text "S05")).record .unlock), rfl, ?_⟩
  rw [yylex, htokens, actions, haction, ok_bind, actions, ok_bind, handleError_idle rfl]
  rfl

/-- A request `?`, and an interrupt that does nothing. -/
theorem ends_iff_yylex_reason : ∃ data', data'.gdb.events = trapReply ∧
    ReflTransGen (Process.Step .zeros fun _ => []) (Process.start idle (text "$?#3f") [4])
      (Sequential.process ⟨data', [], [], true⟩) := by
  obtain ⟨data', hevents, hrun⟩ := yylex_reason
  exact ⟨data', hevents,
    (ends_iff_yylex .zeros (fun _ => []) idle data' (text "$?#3f") [4] [] (by decide)).2
      ⟨⟨[4], rfl⟩, 0, hrun⟩⟩

/-! ## What holds in every run -/

/-- The lock is held as the points say, and `main` has gone on only when the session is over. -/
structure Process.Sound (s : Process) : Prop where
  disciplined : s.Disciplined
  joined : s.main ≠ .joining → s.gdb = .exited

section Sound

variable {h : Host} {after : List (Rule × List (BitVec 8)) → List (BitVec 8)} {s t : Process}

theorem mainThread_inv (hs : mainThread s = some t) :
    s.main ≠ .returned ∧ ∃ main, main ≠ .joining ∧ t = { s with main := main } ∧
      (s.main = .joining → s.gdb = .exited) := by
  unfold mainThread at hs
  cases hm : s.main with
  | joining =>
    rw [hm] at hs
    cases hg : s.gdb with
    | exited =>
      rw [hg] at hs
      cases hs
      exact ⟨nofun, .destroyed, nofun, rfl, fun _ => rfl⟩
    | scanning | locking | handling | continuing | unlocking =>
      rw [hg] at hs
      cases hs
  | destroyed =>
    rw [hm] at hs
    cases hs
    exact ⟨nofun, .returned, nofun, rfl, nofun⟩
  | returned =>
    rw [hm] at hs
    cases hs

theorem Process.Step.inv (hs : Process.Step h after s t) :
    (∃ i, Process.StepOf h after i s t) ∨ mainThread s = some t := by
  cases hs with
  | gdb _ hs => exact .inl ⟨.gdb, gdbListener_iff.1 hs⟩
  | irq _ hs => exact .inl ⟨.irq, irqListener_iff.1 hs⟩
  | main hs => exact .inr hs

theorem exited_stepOf {i : Listener} (hs : Process.StepOf h after i s t) (hg : s.gdb = .exited) :
    t.gdb = .exited := by
  cases i with
  | gdb =>
    cases hs with
    | finish hg' | scan hg' | request hg' | lock hg' | call hg' | handle hg' | round hg'
    | stop hg' | unlock hg' => cases hg.symm.trans hg'
  | irq => cases hs <;> exact hg

theorem Process.Sound.step (hd : s.Sound) (hs : Process.Step h after s t) : t.Sound := by
  obtain ⟨i, hs⟩ | hs := hs.inv
  · refine ⟨disciplined_stepOf hs hd.disciplined, fun hm => exited_stepOf hs (hd.joined ?_)⟩
    rwa [main_stepOf hs] at hm
  · obtain ⟨-, main, -, rfl, hjoin⟩ := mainThread_inv hs
    refine ⟨⟨hd.disciplined.gdb, hd.disciplined.irq⟩, fun _ => ?_⟩
    by_cases hm : s.main = .joining
    · exact hjoin hm
    · exact hd.joined hm

theorem Process.Sound.run (hd : s.Sound) (hrun : ReflTransGen (Process.Step h after) s t) :
    t.Sound := by
  induction hrun with
  | refl => exact hd
  | tail _ hs ih => exact ih.step hs

theorem sound_start (data : ParserData) (input irqs : List (BitVec 8)) :
    (Process.start data input irqs).Sound :=
  ⟨disciplined_start data input irqs, fun hm => absurd rfl hm⟩

/-- The interrupts wait in their order, and leave it from its front. -/
theorem pending_step (hs : Process.Step h after s t) : t.pending <:+ s.pending := by
  unfold Process.pending
  obtain ⟨i, hs⟩ | hs := hs.inv
  · cases i with
    | gdb =>
      obtain ⟨hq, hi⟩ : s.irq = t.irq ∧ s.irqs = t.irqs := by cases hs <;> exact ⟨rfl, rfl⟩
      rw [hq, hi]
    | irq =>
      cases hs with
      | read hq hi =>
        rw [hq, hi]
      | lock hq | unlock hq => rw [hq]
      | raise hq =>
        rw [hq]
        exact List.suffix_cons _ _
  · obtain ⟨-, main, -, rfl, -⟩ := mainThread_inv hs
    exact List.suffix_refl _

end Sound

/-! ## Interrupts while `cont` runs -/

section Continuing

variable {h : Host} {after : List (Rule × List (BitVec 8)) → List (BitVec 8)} {s t : Process}

/-- The loop of `cont` does not come to its end. -/
def Endless (h : Host) (g : Gdb) : Prop := ∀ n g', contLoop h n g ≠ .ok g'

theorem Endless.round {g g' : Gdb} {stop : Bool} (he : Endless h g)
    (hround : contRound h g = .ok (g', stop)) : stop = false ∧ Endless h g' := by
  have hnext (n : Nat) : contLoop h (n + 1) g =
      if stop then .ok g' else contLoop h n g' := by
    rw [contLoop_round, hround]
    rfl
  cases stop with
  | true => exact absurd (hnext 0) (he 1 g')
  | false => exact ⟨rfl, fun n g'' hn => he (n + 1) g'' ((hnext n).trans hn)⟩

theorem endless_step (hd : s.Sound) (hg : s.gdb = .continuing) (he : Endless h s.data.gdb)
    (hs : Process.Step h after s t) :
    t.gdb = .continuing ∧ Endless h t.data.gdb ∧ t.input = s.input ∧ t.pending = s.pending := by
  have hlock : s.lock = some .gdb := hd.disciplined.gdb.1 (by rw [hg]; trivial)
  obtain ⟨i, hs⟩ | hs := hs.inv
  · cases i with
    | gdb =>
      cases hs with
      | round _ hround => exact ⟨hg, (he.round hround).2, rfl, rfl⟩
      | stop _ hround => cases (he.round hround).1
      | finish hg' | scan hg' | request hg' | lock hg' | call hg' | handle hg' | unlock hg' =>
        rw [hg] at hg'
        cases hg'
    | irq =>
      have hout : ¬ s.irq.Inside := by
        rw [hd.disciplined.irq, hlock]
        exact nofun
      cases hs with
      | read hq hi =>
        refine ⟨hg, he, rfl, ?_⟩
        unfold Process.pending
        rw [hq, hi]
      | lock hq hfree =>
        rw [hlock] at hfree
        cases hfree
      | raise hq | unlock hq =>
        rw [hq] at hout
        exact absurd trivial hout
  · obtain ⟨-, main, -, rfl, hjoin⟩ := mainThread_inv hs
    by_cases hm : s.main = .joining
    · rw [hjoin hm] at hg
      cases hg
    · rw [hd.joined hm] at hg
      cases hg

theorem endless_run (hd : s.Sound) (hg : s.gdb = .continuing) (he : Endless h s.data.gdb)
    (hrun : ReflTransGen (Process.Step h after) s t) :
    t.gdb = .continuing ∧ Endless h t.data.gdb ∧ t.input = s.input ∧ t.pending = s.pending := by
  induction hrun with
  | refl => exact ⟨hg, he, rfl, rfl⟩
  | tail hrun hs ih =>
    obtain ⟨hg', he', hinput, hpending⟩ := ih
    obtain ⟨hg'', he'', hinput', hpending'⟩ := endless_step (hd.run hrun) hg' he' hs
    exact ⟨hg'', he'', hinput'.trans hinput, hpending'.trans hpending⟩

/-- With the lock free, a waiting interrupt comes to be raised. -/
theorem raising_of_free (hd : s.Sound) (hmain : s.main = .joining) (hfree : s.lock = none)
    (hp : s.pending ≠ []) :
    ∃ t irq, ReflTransGen (Process.Step h after) s t ∧ t.irq = .raising irq := by
  have hstep {s t : Process} (hs : IrqStep h s t) (hmain : s.main = .joining) :
      Process.Step h after s t := step_of_stepOf (i := .irq) hs hmain
  have hout : ¬ s.irq.Inside := by
    rw [hd.disciplined.irq, hfree]
    exact nofun
  cases hq : s.irq with
  | reading =>
    cases hi : s.irqs with
    | nil =>
      unfold Process.pending at hp
      rw [hq] at hp
      exact absurd hi hp
    | cons irq irqs =>
      exact ⟨_, irq, .head (hstep (.read hq hi) hmain) (.single (hstep (.lock rfl hfree) hmain)),
        rfl⟩
  | locking irq => exact ⟨_, irq, .single (hstep (.lock hq hfree) hmain), rfl⟩
  | raising | unlocking =>
    rw [hq] at hout
    exact absurd trivial hout

/-- The loop of `cont`, run to its end by the process, and the lock given back. -/
theorem run_stops {n : Nat} {g : Gdb}
    (after : List (Rule × List (BitVec 8)) → List (BitVec 8)) (hd : s.Sound)
    (hg : s.gdb = .continuing) (hloop : contLoop h n s.data.gdb = .ok g) :
    ∃ (data : ParserData) (p : Packet),
      data.gdb = (g.sent p (stopText g.targetException)).record .unlock ∧
      ReflTransGen (Process.Step h after) s
        { s with data := data, gdb := .scanning, lock := none } := by
  have hinside : s = s.inside .continuing s.data.gdb := by
    have hlock : s.lock = some .gdb := hd.disciplined.gdb.1 (by rw [hg]; trivial)
    unfold Process.inside
    rw [← hg, ← hlock]
    rfl
  have hmain : s.main = .joining := by
    by_contra hm
    rw [hd.joined hm] at hg
    cases hg
  obtain ⟨p, hsend⟩ := stopReason_sent g
  have hrun : GdbRun h after (s.inside .continuing s.data.gdb) (s.inside .unlocking
      (g.sent p (stopText g.targetException))) :=
    run_contLoop hloop (by rw [hsend]; rfl)
  rw [← hinside] at hrun
  exact ⟨_, p, rfl, (GdbRun.steps (hrun.tail (.unlock rfl)) hmain).1⟩

end Continuing

/-- An interrupt that waits while `cont` runs can be raised exactly when the loop comes to its
end. -/
theorem raising_iff_stops (h : Host) (after : List (Rule × List (BitVec 8)) → List (BitVec 8))
    (data : ParserData) (input irqs : List (BitVec 8)) (s : Process)
    (hrun : ReflTransGen (Process.Step h after) (Process.start data input irqs) s)
    (hg : s.gdb = .continuing) (hp : s.pending ≠ []) :
    (∃ t irq, ReflTransGen (Process.Step h after) s t ∧ t.irq = .raising irq) ↔
      ∃ n g, contLoop h n s.data.gdb = .ok g := by
  have hd : s.Sound := (sound_start data input irqs).run hrun
  constructor
  · rintro ⟨t, irq, hst, hq⟩
    by_contra hnever
    have he : Endless h s.data.gdb := fun n g hn => hnever ⟨n, g, hn⟩
    obtain ⟨hg', -⟩ := endless_run hd hg he hst
    have hd' := (hd.run hst).disciplined
    have hlock : t.lock = some .gdb := hd'.gdb.1 (by rw [hg']; trivial)
    have hlock' : t.lock = some .irq := hd'.irq.1 (by rw [hq]; trivial)
    rw [hlock] at hlock'
    cases hlock'
  · rintro ⟨n, g, hloop⟩
    obtain ⟨data', -, -, hst⟩ := run_stops after hd hg hloop
    have hmain : s.main = .joining := by
      by_contra hm
      rw [hd.joined hm] at hg
      cases hg
    obtain ⟨t, irq, ht, hq⟩ := raising_of_free (hd.run hst) hmain rfl hp
    exact ⟨t, irq, hst.trans ht, hq⟩

/-- Without memory the loop stops at once. -/
theorem idle_continues (irqs : List (BitVec 8)) : ∃ s g,
    ReflTransGen (Process.Step .zeros fun _ => []) (Process.start idle (text "$c#63") irqs) s ∧
      s.gdb = .continuing ∧ s.input = [] ∧ s.pending = irqs ∧
      contLoop .zeros 1 s.data.gdb = .ok g ∧ g.events = [.byte (char '+'), .lock] ∧
      stopText g.targetException = text "S05" := by
  have htokens : scanner.tokens (text "$c#63") = [(.packet, text "$c#63")] :=
    Lexer.tokens_of_accepts (by decide) (by decide)
  obtain ⟨data, p, hscan, hbegun⟩ : ∃ data p,
      scan .zeros [] idle (.packet, text "$c#63") = .ok (data, some (char 'c', p)) ∧
        data.gdb.record .lock = (session (.ofBytes [])).begun := ⟨_, _, rfl, rfl⟩
  obtain ⟨g, hstep, hfailed, hevents, hreason⟩ : ∃ g,
      singleStep .zeros (session (.ofBytes [])).begun = .ok g ∧ g.targetException ≠ 0 ∧
      g.events = [.byte (char '+'), .lock] ∧ stopText g.targetException = text "S05" :=
    ⟨_, rfl, by decide, by decide, by decide⟩
  have hloop : contLoop .zeros 1 (data.gdb.record .lock) = .ok g := by
    have hnone : (session (.ofBytes [])).begun.breakpoints.Represents ∅ :=
      Breakpoints.represents_init _
    rw [hbegun, contLoop_succ hnone, hstep]
    exact if_pos (decide_eq_true (.inr hfailed))
  have hrun : GdbRun .zeros (fun _ => []) (Process.start idle (text "$c#63") irqs)
      { Process.start idle (text "$c#63") irqs with
        data := data.withGdb (data.gdb.record .lock)
        input := []
        gdb := .continuing
        lock := some .gdb } :=
    .head (.request rfl htokens hscan) (.head (.lock rfl rfl) (.single (.call rfl (.inl rfl))))
  exact ⟨_, g, (GdbRun.steps hrun rfl).1, rfl, rfl, rfl, hloop, hevents, hreason⟩

/-- The input has been read to its end, and the request was answered by a trap. -/
structure Process.Served (s : Process) : Prop where
  scanning : s.gdb = .scanning
  lock : s.lock = none
  input : s.input = []
  events : s.data.gdb.events = trapReply

theorem idle_served (irqs : List (BitVec 8)) : ∃ s : Process, s.Served ∧
    ReflTransGen (Process.Step .zeros fun _ => []) (Process.start idle (text "$c#63") irqs) s := by
  obtain ⟨s, g, hrun, hg, hinput, -, hloop, hevents, hreason⟩ := idle_continues irqs
  obtain ⟨data, p, hdata, hstops⟩ := run_stops _ ((sound_start idle _ _).run hrun) hg hloop
  refine ⟨{ s with data := data, gdb := .scanning, lock := none }, ⟨rfl, rfl, hinput, ?_⟩,
    hrun.trans hstops⟩
  change data.gdb.events = _
  rw [hdata, hreason]
  change g.events ++ _ ++ _ = _
  rw [hevents]
  rfl

theorem raising_iff_stops_reset : ∃ s,
    ReflTransGen (Process.Step .zeros fun _ => []) (Process.start idle (text "$c#63") [1]) s ∧
      ∃ t irq, ReflTransGen (Process.Step .zeros fun _ => []) s t ∧ t.irq = .raising irq := by
  obtain ⟨s, g, hrun, hg, -, hpending, hloop, -⟩ := idle_continues [1]
  have hwaits : s.pending ≠ [] := by
    rw [hpending]
    exact List.cons_ne_nil 1 []
  exact ⟨s, hrun, (raising_iff_stops _ _ _ _ _ _ hrun hg hwaits).2 ⟨1, g, hloop⟩⟩

/-! ## The end of `main` -/

section Destroyed

variable {h : Host} {after : List (Rule × List (BitVec 8)) → List (BitVec 8)} {s t : Process}

/-- The session is over, and `main` has destroyed the processor but not returned. -/
structure Process.Ending (s : Process) : Prop where
  sound : s.Sound
  gdb : s.gdb = .exited
  main : s.main = .destroyed

/-- `irq_listener` comes to use the processor that is no more. -/
def UsesFreed (h : Host) (after : List (Rule × List (BitVec 8)) → List (BitVec 8)) (s : Process) :
    Prop :=
  ∃ t, ReflTransGen (Process.Step h after) s t ∧ irqListener h t = .error .freed

theorem UsesFreed.of_step (hs : Process.Step h after s t) (hf : UsesFreed h after t) :
    UsesFreed h after s := by
  obtain ⟨u, hrun, hu⟩ := hf
  exact ⟨u, .head hs hrun, hu⟩

theorem Process.Ending.irq (he : s.Ending)
    (after : List (Rule × List (BitVec 8)) → List (BitVec 8)) (hs : IrqStep h s t) :
    Process.Step h after s t ∧ t.Ending := by
  have hs' : Process.StepOf h after .irq s t := hs
  have hlive : s.main ≠ .returned := by
    rw [he.main]
    exact nofun
  have hstep : Process.Step h after s t := .irq hlive (irqListener_iff.2 hs)
  exact ⟨hstep, he.sound.step hstep, exited_stepOf hs' he.gdb, (main_stepOf hs').trans he.main⟩

theorem Process.Ending.free (he : s.Ending) (hout : ¬ s.irq.Inside) : s.lock = none := by
  cases hl : s.lock with
  | none => rfl
  | some i =>
    cases i with
    | gdb =>
      have hin := he.sound.disciplined.gdb.2 hl
      rw [he.gdb] at hin
      exact hin.elim
    | irq => exact absurd (he.sound.disciplined.irq.2 hl) hout

theorem usesFreed_of_now {irq : BitVec 8} (he : s.Ending) (hq : s.irq = .raising irq)
    (huse : UsesCore irq) : UsesFreed h after s := by
  have hjoined : s.main ≠ .joining := by
    rw [he.main]
    exact nofun
  refine ⟨s, .refl, ?_⟩
  unfold irqListener
  rw [hq]
  exact if_pos ⟨hjoined, huse⟩

/-- When an interrupt is to be raised: either it uses the processor, or one that comes after it
does. An induction on those that come after. -/
theorem usesFreed_of_raising {irqs : List (BitVec 8)} {irq : BitVec 8} (he : s.Ending)
    (hq : s.irq = .raising irq) (hi : s.irqs = irqs) (huse : ∃ b ∈ irq :: irqs, UsesCore b) :
    UsesFreed h after s := by
  induction irqs generalizing s irq with
  | nil =>
    obtain ⟨b, hb, huse⟩ := huse
    rw [List.mem_singleton] at hb
    subst hb
    exact usesFreed_of_now he hq huse
  | cons next irqs ih =>
    by_cases hnow : UsesCore irq
    · exact usesFreed_of_now he hq hnow
    · obtain ⟨hs₁, he₁⟩ := he.irq after
        (.raise hq (fun hc => hnow hc.2) (armException_plain hnow))
      obtain ⟨hs₂, he₂⟩ := he₁.irq after (.unlock rfl)
      obtain ⟨hs₃, he₃⟩ := he₂.irq after (.read rfl hi)
      obtain ⟨hs₄, he₄⟩ := he₃.irq after (.lock rfl rfl)
      have hlater : ∃ b ∈ next :: irqs, UsesCore b := by
        obtain ⟨b, hb, huse⟩ := huse
        obtain rfl | hb := List.mem_cons.1 hb
        · exact absurd huse hnow
        · exact ⟨b, hb, huse⟩
      exact .of_step hs₁ (.of_step hs₂ (.of_step hs₃ (.of_step hs₄ (ih he₄ rfl rfl hlater))))

theorem usesFreed_of_locking {irq : BitVec 8} (he : s.Ending) (hq : s.irq = .locking irq)
    (huse : ∃ b ∈ irq :: s.irqs, UsesCore b) : UsesFreed h after s := by
  have hfree : s.lock = none := he.free (by rw [hq]; exact id)
  obtain ⟨hs, he'⟩ := he.irq after (.lock hq hfree)
  exact .of_step hs (usesFreed_of_raising he' rfl rfl huse)

theorem usesFreed_of_reading (he : s.Ending) (hq : s.irq = .reading)
    (huse : ∃ b ∈ s.irqs, UsesCore b) : UsesFreed h after s := by
  cases hi : s.irqs with
  | nil =>
    obtain ⟨b, hb, -⟩ := huse
    rw [hi] at hb
    cases hb
  | cons irq irqs =>
    obtain ⟨hs, he'⟩ := he.irq after (.read hq hi)
    rw [hi] at huse
    exact .of_step hs (usesFreed_of_locking he' rfl huse)

theorem usesFreed_of_ending (he : s.Ending) (huse : ∃ b ∈ s.pending, UsesCore b) :
    UsesFreed h after s := by
  unfold Process.pending at huse
  cases hq : s.irq with
  | reading =>
    rw [hq] at huse
    exact usesFreed_of_reading he hq huse
  | locking irq =>
    rw [hq] at huse
    exact usesFreed_of_locking he hq huse
  | raising irq =>
    rw [hq] at huse
    exact usesFreed_of_raising he hq rfl huse
  | unlocking =>
    rw [hq] at huse
    obtain ⟨hs, he'⟩ := he.irq after (.unlock hq)
    exact .of_step hs (usesFreed_of_reading he' rfl huse)

theorem UsesFreed.pending (hf : UsesFreed h after s) : ∃ b ∈ s.pending, UsesCore b := by
  obtain ⟨t, hrun, ht⟩ := hf
  induction hrun using ReflTransGen.head_induction_on with
  | refl =>
    unfold irqListener at ht
    split at ht
    · split at ht <;> cases ht
    · split at ht <;> cases ht
    · rename_i irq hq
      split at ht
      · rename_i hc
        refine ⟨irq, ?_, hc.2⟩
        rw [Process.pending, hq]
        exact .head _
      · split at ht <;> cases ht
    · cases ht
  | head hs _ ih =>
    obtain ⟨b, hb, huse⟩ := ih
    exact ⟨b, (pending_step hs).mem hb, huse⟩

end Destroyed

/-- Once the session is over, and until `main` returns, the processor can be used after it has
been destroyed exactly when an interrupt waits that uses it. -/
theorem usesFreed_iff (h : Host) (after : List (Rule × List (BitVec 8)) → List (BitVec 8))
    (data : ParserData) (input irqs : List (BitVec 8)) (s : Process)
    (hrun : ReflTransGen (Process.Step h after) (Process.start data input irqs) s)
    (hg : s.gdb = .exited) (hmain : s.main ≠ .returned) :
    UsesFreed h after s ↔ ∃ b ∈ s.pending, UsesCore b := by
  refine ⟨UsesFreed.pending, fun huse => ?_⟩
  have hd : s.Sound := (sound_start data input irqs).run hrun
  cases hm : s.main with
  | returned => exact absurd hm hmain
  | destroyed => exact usesFreed_of_ending ⟨hd, hg, hm⟩ huse
  | joining =>
    have hs : Process.Step h after s { s with main := .destroyed } := by
      refine .main ?_
      rw [mainThread, hm, hg]
    exact .of_step hs (usesFreed_of_ending ⟨hd.step hs, hg, rfl⟩ huse)

/-- At the end of an empty session, with a reset to come. -/
theorem usesFreed_iff_reset :
    UsesFreed .zeros (fun _ => []) { Process.start idle [] [1] with gdb := .exited } := by
  have hrun : ReflTransGen (Process.Step .zeros fun _ => []) (Process.start idle [] [1])
      { Process.start idle [] [1] with gdb := .exited } :=
    .single (step_of_stepOf (i := .gdb) (GdbStep.finish rfl Lexer.tokens_nil rfl) rfl)
  exact (usesFreed_iff .zeros _ idle [] [1] _ hrun rfl nofun).2 ⟨1, .head _, by decide⟩

end Armator.Sim
