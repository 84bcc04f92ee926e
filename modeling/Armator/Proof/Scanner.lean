import Armator.Sim.Scanner

/-!
# Resynchronisation of the scanner

A packet text has its only `$` at its start and its only `#` two digits before its end, so
no match of a rule reaches from before a packet into it, or from a packet past its end. The
packets of an input are the texts that the actions call `gdb_packet_analysis` with (`Analyses`).
-/

namespace Armator.Sim

open Lib

/-- A well-formed packet: `$`, bytes other than `$` and `#`, `#`, two hexadecimal digits. -/
def IsPacket (p : List (BitVec 8)) : Prop :=
  ∃ payload x y, p = char '$' :: (payload ++ [char '#', x, y]) ∧
    (∀ c ∈ payload, c ≠ char '$' ∧ c ≠ char '#') ∧ isHex x = true ∧ isHex y = true

section Packet

variable {c a x y : BitVec 8} {payload s w r p : List (BitVec 8)}

theorem isPlain_iff : isPlain c = true ↔ c ≠ char '$' ∧ c ≠ char '#' := decide_eq_true_iff

theorem dropWhile_plain (h : ∀ c ∈ payload, c ≠ char '$' ∧ c ≠ char '#') (s : List (BitVec 8)) :
    (payload ++ char '#' :: s).dropWhile isPlain = char '#' :: s := by
  rw [List.dropWhile_append_of_pos fun c hc => isPlain_iff.mpr (h c hc)]
  rfl

theorem isPacket_cons (h : ∀ c ∈ payload, c ≠ char '$' ∧ c ≠ char '#') (s : List (BitVec 8)) :
    isPacket (char '$' :: (payload ++ char '#' :: s)) = true ↔
      ∃ x y, s = [x, y] ∧ isHex x = true ∧ isHex y = true := by
  unfold isPacket
  dsimp only
  rw [dropWhile_plain h]
  split
  · rename_i heq
    obtain ⟨rfl, rfl⟩ := List.cons.inj heq
    rw [decide_eq_true_iff]
    refine ⟨fun ⟨_, _, hx, hy⟩ => ⟨_, _, rfl, hx, hy⟩, ?_⟩
    rintro ⟨x', y', hs, hx, hy⟩
    cases hs
    exact ⟨rfl, rfl, hx, hy⟩
  · rename_i hno
    refine iff_of_false Bool.false_ne_true ?_
    rintro ⟨x, y, rfl, -, -⟩
    exact hno _ _ _ rfl

theorem isPacket_iff : isPacket s = true ↔ IsPacket s := by
  refine ⟨fun h => ?_, ?_⟩
  · cases s with
    | nil => cases h
    | cons c s =>
      unfold isPacket at h
      dsimp only at h
      split at h
      · rename_i a x y heq
        obtain ⟨rfl, rfl, hx, hy⟩ := decide_eq_true_iff.mp h
        refine ⟨s.takeWhile isPlain, x, y, ?_, fun c hc => ?_, hx, hy⟩
        · rw [← heq, List.takeWhile_append_dropWhile]
        · exact isPlain_iff.mp (List.all_eq_true.mp List.all_takeWhile c hc)
      · cases h
  · rintro ⟨payload, x, y, rfl, hplain, hx, hy⟩
    exact (isPacket_cons hplain [x, y]).mpr ⟨x, y, rfl, hx, hy⟩

theorem isHex_ne_dollar (h : isHex c = true) : c ≠ char '$' := by
  rintro rfl
  cases h

theorem not_mem_of_isPacket (h : isPacket (c :: s) = true) : char '$' ∉ s := by
  obtain ⟨payload, x, y, hs, hplain, hx, hy⟩ := isPacket_iff.mp h
  obtain ⟨-, rfl⟩ := List.cons.inj hs
  intro hmem
  rcases List.mem_append.mp hmem with hmem | hmem
  · exact (hplain _ hmem).1 rfl
  · rcases List.mem_cons.mp hmem with he | hmem
    · cases he
    · rcases List.mem_cons.mp hmem with he | hmem
      · exact isHex_ne_dollar hx he.symm
      · exact isHex_ne_dollar hy (List.mem_singleton.mp hmem).symm

theorem accepts_of_length (h : 2 ≤ s.length) : scanner.accepts s = isPacket s := by
  have hword {r : Rule} : r ≠ .packet → Rule.word r s = false := by
    intro hr
    cases r with
    | ack | nack =>
      refine decide_eq_false fun hs => ?_
      rw [hs, List.length_singleton] at h
      omega
    | packet => exact absurd rfl hr
    | other => exact decide_eq_false fun hs => by omega
    | dflt => rfl
  have hack := hword (r := .ack) (by decide)
  have hnack := hword (r := .nack) (by decide)
  have hother := hword (r := .other) (by decide)
  unfold Lexer.accepts scanner
  simp only [List.any_cons, List.any_nil, hack, hnack, hother, Bool.false_or, Bool.or_false]
  rfl

theorem two_le_length_append {u v : List (BitVec 8)} (hu : u ≠ []) (hv : v ≠ []) :
    2 ≤ (u ++ v).length := by
  have h1 := List.length_pos_iff.mpr hu
  have h2 := List.length_pos_iff.mpr hv
  rw [List.length_append]
  omega

theorem separate_dollar (w s : List (BitVec 8)) : scanner.Separate w (char '$' :: s) := by
  intro u v _ hu hv hne
  rw [accepts_of_length (two_le_length_append hu hne), Bool.eq_false_iff]
  intro hp
  obtain ⟨v', rfl⟩ : ∃ v', v = char '$' :: v' := by
    rcases List.prefix_cons_iff.mp hv with rfl | ⟨v', rfl, -⟩
    · exact absurd rfl hne
    · exact ⟨v', rfl⟩
  cases u with
  | nil => exact hu rfl
  | cons c u =>
    rw [List.cons_append] at hp
    exact not_mem_of_isPacket hp (List.mem_append_right u List.mem_cons_self)

theorem separate_packet (hp : IsPacket p) (r : List (BitVec 8)) : scanner.Separate p r := by
  intro u v hsuf hu _ hne
  rw [accepts_of_length (two_le_length_append hu hne), Bool.eq_false_iff]
  intro huv
  obtain ⟨payload, x, y, rfl, hplain, hx, hy⟩ := hp
  have hpacket : isPacket (char '$' :: (payload ++ [char '#', x, y])) = true :=
    (isPacket_cons hplain [x, y]).mpr ⟨x, y, rfl, hx, hy⟩
  rcases List.suffix_cons_iff.mp hsuf with rfl | hsuf
  · rw [List.cons_append, List.append_assoc, List.cons_append] at huv
    obtain ⟨x', y', hs, -, -⟩ := (isPacket_cons hplain _).mp huv
    have hlen := congrArg List.length hs
    have hpos := List.length_pos_iff.mpr hne
    simp only [List.length_append, List.length_cons, List.length_nil] at hlen
    omega
  · -- a later start would be a second `$`
    cases u with
    | nil => exact hu rfl
    | cons c u =>
      obtain ⟨_, _, _, hs, -⟩ := isPacket_iff.mp huv
      have hc : c = char '$' := (List.cons.inj hs).1
      have hmem : c ∈ payload ++ [char '#', x, y] := hsuf.subset List.mem_cons_self
      rw [hc] at hmem
      exact not_mem_of_isPacket hpacket hmem

theorem separate_single (hc : c ≠ char '$') (s : List (BitVec 8)) : scanner.Separate [c] s := by
  intro u v hu hne _ hv
  have hsame : u = [c] := by
    obtain rfl | hnil := List.suffix_cons_iff.1 hu
    · rfl
    · exact absurd (List.suffix_nil.1 hnil) hne
  subst hsame
  rw [accepts_of_length (two_le_length_append hne hv), Bool.eq_false_iff]
  intro hp
  obtain ⟨payload, x, y, htext, -⟩ := isPacket_iff.1 hp
  exact hc (List.cons.inj htext).1

theorem tokens_packet (hp : IsPacket p) : scanner.tokens p = [(.packet, p)] := by
  have hlen : 2 ≤ p.length := by
    obtain ⟨payload, x, y, rfl, -⟩ := hp
    simp only [List.length_append, List.length_cons]
    omega
  have hacc : isPacket p = true := isPacket_iff.mpr hp
  have hne : p ≠ [] := fun h => by
    rw [h, List.length_nil] at hlen
    omega
  rw [Lexer.tokens_of_accepts hne (by rw [accepts_of_length hlen, hacc])]
  have hrule : scanner.rule p = .packet := by
    have hack : Rule.word .ack p = false := decide_eq_false fun h => by
      rw [h, List.length_singleton] at hlen
      omega
    have hnack : Rule.word .nack p = false := decide_eq_false fun h => by
      rw [h, List.length_singleton] at hlen
      omega
    have hpacket : Rule.word .packet p = true := hacc
    unfold Lexer.rule scanner
    simp only [List.find?_cons, hack, hnack, hpacket]
    rfl
  rw [hrule]

theorem isPacket_of_mem {t : Rule × List (BitVec 8)} (ht : t ∈ scanner.tokens s)
    (hp : t.1 = .packet) : IsPacket t.2 := by
  have hword := Lexer.word_of_mem_tokens ht (by rw [hp]; exact nofun)
  rw [hp] at hword
  exact isPacket_iff.1 hword

theorem packets_append (h : scanner.Separate w s) : packets (w ++ s) = packets w ++ packets s := by
  rw [packets, Lexer.tokens_append h, List.filterMap_append]
  rfl

theorem packets_packet (hp : IsPacket p) : packets p = [p] := by
  rw [packets, tokens_packet hp]
  rfl

/-- **Resynchronisation**: a packet in the stream is delivered, whatever is around it. -/
theorem packets_resync (hp : IsPacket p) (w r : List (BitVec 8)) :
    packets (w ++ p ++ r) = packets w ++ [p] ++ packets r := by
  have hsep : scanner.Separate w (p ++ r) := by
    obtain ⟨payload, x, y, rfl, -⟩ := hp
    exact separate_dollar w _
  rw [List.append_assoc, packets_append hsep, packets_append (separate_packet hp r),
    packets_packet hp, List.append_assoc]

/-- `+$m0` cut short, then `$?#3f`, then half a packet. -/
theorem packets_resync_reason :
    packets (text "+$m0" ++ text "$?#3f" ++ text "$g#") =
      packets (text "+$m0") ++ [text "$?#3f"] ++ packets (text "$g#") :=
  packets_resync ⟨text "?", char '3', char 'f', by decide, by decide, by decide, by decide⟩ _ _

end Packet

/-! ## The packets of a run -/

/-- From `data` to `data'` the scanner makes one call of `gdb_packet_analysis` for each of the
texts `ps`, in this order and each of them returning, and otherwise reports errors, sends the
last packet again and notes characters. -/
inductive Analyses (h : Host) (steps : Nat) :
    ParserData → List (List (BitVec 8)) → ParserData → Prop where
  | done (data : ParserData) : Analyses h steps data [] data
  | call {data d : ParserData} {g : Gdb} {text after : List (BitVec 8)}
      {ps : List (List (BitVec 8))} {data' : ParserData}
      (herror : handleError data = .ok d)
      (hrun : gdbPacketAnalysis h steps d.gdb (yytext text after) text.length = .ok g)
      (hrest : Analyses h steps { d with gdb := g } ps data') :
      Analyses h steps data (text :: ps) data'
  | error {data d data' : ParserData} {ps : List (List (BitVec 8))}
      (herror : handleError data = .ok d) (hrest : Analyses h steps d ps data') :
      Analyses h steps data ps data'
  | again {data data' : ParserData} {g : Gdb} {ps : List (List (BitVec 8))}
      (hsent : gdbTransmitPacket data.gdb = .ok g)
      (hrest : Analyses h steps { data with gdb := g } ps data') : Analyses h steps data ps data'
  | noted {data d data' : ParserData} {c : BitVec 8} {ps : List (List (BitVec 8))}
      (hnoted : addCharacterToError data c = .ok d) (hrest : Analyses h steps d ps data') :
      Analyses h steps data ps data'

section Run

variable {h : Host} {steps : Nat} {after : List (Rule × List (BitVec 8)) → List (BitVec 8)}
  {data data' : ParserData}

theorem lift_eq_ok {α : Type} {x : Except Fault α} {a : α} (hx : lift x = .ok a) : x = .ok a := by
  cases x with
  | error f => cases hx
  | ok b =>
    cases hx
    rfl

/-- An induction on the tokens, one case for each rule. -/
theorem analyses_actions {ts : List (Rule × List (BitVec 8))}
    (hrun : actions h steps after ts data = .ok data') :
    ∀ {last : ParserData} {ps : List (List (BitVec 8))}, Analyses h steps data' ps last →
      Analyses h steps data
        ((ts.filterMap fun t => if t.1 = .packet then some t.2 else none) ++ ps) last := by
  induction ts generalizing data with
  | nil =>
    cases hrun
    exact id
  | cons t ts ih =>
    intro last ps hlast
    obtain ⟨d, hd, hrest⟩ := exists_of_bind hrun
    have hnext := ih hrest hlast
    obtain ⟨rule, text⟩ := t
    cases rule with
    | ack => exact .error (lift_eq_ok hd) hnext
    | nack =>
      obtain ⟨d₁, herror, hd₁⟩ := exists_of_bind (lift_eq_ok hd)
      obtain ⟨g, hsent, hg⟩ := exists_of_bind hd₁
      cases hg
      exact .error herror (.again hsent hnext)
    | packet =>
      obtain ⟨d₁, herror, hd₁⟩ := exists_of_bind hd
      obtain ⟨g, hcall, hg⟩ := exists_of_bind hd₁
      cases hg
      exact .call (lift_eq_ok herror) hcall hnext
    | other => exact .noted (lift_eq_ok hd) hnext
    | dflt =>
      cases hd
      exact hnext

/-- **The calls of a run**: `packets input` are the texts that `gdb_packet_analysis` is called
with, if every call returns. -/
theorem yylex_analyses {input : List (BitVec 8)}
    (hrun : yylex h steps after data input = .ok data') :
    Analyses h steps data (packets input) data' := by
  obtain ⟨d, hactions, herror⟩ := exists_of_bind hrun
  have hall := analyses_actions hactions (.error (lift_eq_ok herror) (.done data'))
  rwa [List.append_nil] at hall

end Run

end Armator.Sim
