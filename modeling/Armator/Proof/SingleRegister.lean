import Armator.Proof.RegisterDump

/-!
# Single registers through the debugger

A request `P` names its register in hexadecimal and reads it with `%x`; a request `p` names
it the same way, but `atoi` reads the name in decimal, in which a letter is no digit.
-/

namespace Armator.Sim

open Lib

/-- The register `read_single_register` takes the digit for. -/
def namedRegister (n : Nat) : Nat := if n ≤ 9 then n else 0

section Requests

variable {h : Host} {steps : Nat} {g : Gdb} {n : Nat} {v : BitVec 32}
  {word s rest : List (BitVec 8)} {data : Pointer}

theorem atoi_hexDigit (h : Host) (hn : n < 16) : atoi h [hexDigit n] = namedRegister n := by
  have hfit : ∀ n : Nat, n < 10 → (BitVec.ofInt 32 (n : Int)).toInt = n := by decide
  have hdigits : ∀ n < 16, ([hexDigit n].takeWhile isDigit).foldl
      (fun n c => 10 * n + (c.toNat - 48)) 0 = namedRegister n := by decide
  have hplain : ∀ n < 16, scanSign ([hexDigit n].dropWhile isSpace) = (false, [hexDigit n]) := by
    decide
  have hlt : namedRegister n < 10 := by
    unfold namedRegister
    split
    · omega
    · omega
  unfold atoi
  rw [hplain n hn]
  dsimp only
  rw [hdigits n hn, if_neg Bool.false_ne_true, if_pos (hfit _ hlt)]

theorem hexDigit_ne_zero (hn : n < 16) : hexDigit n ≠ 0 := hex_ne_zero (isHex_hexDigit hn)

/-- A request `p` is answered by the register its digit is taken for. -/
theorem readSingleRegister_eq (h : Host) (steps : Nat) (g : Gdb) (hn : n < 16)
    (hcells : data.cells = [hexDigit n] ++ 0 :: rest) :
    ∃ p, readSingleRegister h steps g data =
      .ok (g.sent p (hexText 8 (g.arm.reg.get (namedRegister n)).toNat)) := by
  have hlt : namedRegister n < 16 := by
    unfold namedRegister
    split
    · exact hn
    · decide
  have hs : data.string = .ok [hexDigit n] := Pointer.string_eq hcells (by
    rw [List.mem_singleton]
    exact (hexDigit_ne_zero hn).symm)
  have hreg : (BitVec.ofInt 32 (namedRegister n : Int)).setWidth 8 =
      (BitVec.ofNat 8 (namedRegister n) : BitVec 8) := by
    revert hlt
    generalize namedRegister n = k
    revert k
    decide
  obtain ⟨p, hp, -⟩ := gdbSendData_sent (g := g)
    (clean_hexText 8 (g.arm.reg.get (namedRegister n)).toNat).not_mem
    (by rw [length_hexText]; decide)
  refine ⟨p, ?_⟩
  unfold readSingleRegister
  rw [hs]
  dsimp only [lift]
  rw [ok_bind, atoi_hexDigit h hn, hreg, readRegister_eq hlt]
  change (lift (g.put buffer _) >>= fun gdb => lift (gdbSendBuffer gdb)) = _
  rw [← lift_bind]
  exact congrArg lift hp

theorem writeSingleRegister_eq (h : Host) (steps : Nat) (g : Gdb) (hn : n < 16)
    (hw : IsField word v)
    (hcells : data.cells = (hexDigit n :: char '=' :: word) ++ 0 :: rest) :
    ∃ p, writeSingleRegister h steps g data =
      .ok (Gdb.sent { g with arm := { g.arm with reg := g.arm.reg.set n v } } p (text "OK")) := by
  have hclean : 0 ∉ hexDigit n :: char '=' :: word := by
    intro h0
    obtain h0 | h0 := List.mem_cons.mp h0
    · exact hexDigit_ne_zero hn h0.symm
    · obtain h0 | h0 := List.mem_cons.mp h0
      · exact absurd h0 (by decide)
      · exact hw.not_mem h0
  have hs : data.string = .ok (hexDigit n :: char '=' :: word) := Pointer.string_eq hcells hclean
  have hdigit : ∀ c ∈ [hexDigit n], isHex c = true := by
    intro c hc
    rw [List.mem_singleton.mp hc]
    exact isHex_hexDigit hn
  have hval : hexVal [hexDigit n] = n := by
    revert hn
    generalize n = k
    revert k
    decide
  have hscan : scanHex none (hexDigit n :: char '=' :: word) =
      some ((n : Int), char '=' :: word) := by
    have hscan := scanHex_digits (List.cons_ne_nil _ _) hdigit
      (ends_cons (c := char '=') (r := word) (by decide))
    rwa [hval] at hscan
  have hreg : h.assigned 32 (sscanf [.hex none] (hexDigit n :: char '=' :: word)) 0
      .writeRegisterReg = BitVec.ofNat 32 n := by
    rw [sscanf, hscan]
    exact h.fit_ofNat (Nat.lt_trans hn (by decide))
  have hne : char '=' ∉ [hexDigit n] := by
    intro heq
    have hx := hdigit _ heq
    revert hx
    decide
  have hfound : index data (char '=') = .ok (data.add 1) :=
    index_eq (a := [hexDigit n]) (b := word) hs hne
  have hword : ((data.add 1).add 1).cells = word ++ 0 :: rest := by
    rw [Pointer.cells_add, Pointer.cells_add, hcells]
    rfl
  obtain ⟨p, hp⟩ := gdbSendData_ok { g with arm := { g.arm with reg := g.arm.reg.set n v } }
  refine ⟨p, ?_⟩
  unfold writeSingleRegister
  rw [hs]
  dsimp only [lift]
  rw [ok_bind, hreg, hfound]
  dsimp only
  rw [ok_bind, writeRegister_eq hn hw hword List.mem_cons_self, ok_bind, hp]

/-- The request `p` for register `n`. -/
def askRegister (n : Nat) : List (BitVec 8) := [char 'p', hexDigit n]

/-- The request `P` for register `n`. -/
def setRegister (n : Nat) (word : List (BitVec 8)) : List (BitVec 8) :=
  char 'P' :: hexDigit n :: char '=' :: word

theorem exchange_ask (hn : n < 16) : Exchange h steps g (askRegister n)
    (hexText 8 (g.arm.reg.get (namedRegister n)).toNat) fun _ => True :=
  exchange_of_handler (f := readSingleRegister) rfl fun data rest hcells => by
    obtain ⟨p, hp⟩ := readSingleRegister_eq h steps g.begun hn hcells
    exact ⟨g.begun, p, hp, rfl, trivial⟩

theorem exchange_set (h : Host) (steps : Nat) (g : Gdb) (hn : n < 16) (hw : IsField word v) :
    Exchange h steps g (setRegister n word) (text "OK") fun g' =>
      g'.arm = { g.arm with reg := g.arm.reg.set n v } :=
  exchange_of_handler (f := writeSingleRegister) rfl fun data rest hcells => by
    obtain ⟨p, hp⟩ := writeSingleRegister_eq h steps g.begun hn hw hcells
    exact ⟨_, p, hp, rfl, rfl⟩

end Requests

/-! ## One numbering -/

section Unique

variable {h : Host} {steps : Nat} {g : Gdb} {s t request : List (BitVec 8)} {P Q : Gdb → Prop}

theorem frame_injective (hst : frame s = frame t) : s = t := by
  have hlen : s.length = t.length := by
    have h := congrArg List.length hst
    rw [length_frame, length_frame] at h
    omega
  unfold frame at hst
  exact (List.append_inj (List.cons.inj hst).2 hlen).1

theorem Exchange.reply_unique (hs : Exchange h steps g request s P)
    (ht : Exchange h steps g request t Q) : s = t := by
  obtain ⟨x, y, -, hx, hy, heq⟩ := frame_eq request
  obtain ⟨g₁, hrun, hev, -⟩ := hs x y [] hx hy heq
  obtain ⟨g₂, hrun₂, hev₂, -⟩ := ht x y [] hx hy heq
  rw [hrun] at hrun₂
  cases hrun₂
  have hframes := List.append_cancel_right (hev.symm.trans hev₂)
  have hframes := List.append_cancel_left hframes
  have hinj : Function.Injective Event.byte := fun a b hab => Event.byte.inj hab
  exact frame_injective (hinj.list_map (List.cons.inj (List.cons.inj hframes).2).2)

theorem hexText_injective {v w : BitVec 32} (hvw : hexText 8 v.toNat = hexText 8 w.toNat) :
    v = w := by
  have hval := congrArg hexVal hvw
  rw [hexVal_hexText_of_lt v.isLt, hexVal_hexText_of_lt w.isLt] at hval
  exact BitVec.eq_of_toNat_eq hval

end Unique

/-- After a request `P` for register `n`, a request `p` is answered by the value written, and
for every other register by what it was answered before. -/
def SingleRegisterLaw (h : Host) (steps : Nat) (g : Gdb) (n : Nat) (v : BitVec 32)
    (word : List (BitVec 8)) : Prop :=
  Exchange h steps g (setRegister n word) (text "OK") fun g₁ =>
    Exchange h steps g₁ (askRegister n) (hexText 8 v.toNat) (fun _ => True) ∧
    ∀ m < 16, m ≠ n → ∃ reply, Exchange h steps g (askRegister m) reply (fun _ => True) ∧
      Exchange h steps g₁ (askRegister m) reply fun _ => True

section Law

variable {h : Host} {steps : Nat} {g : Gdb} {n : Nat} {v : BitVec 32} {word : List (BitVec 8)}

theorem namedRegister_of_le (hn : n ≤ 9) : namedRegister n = n := if_pos hn

theorem namedRegister_of_gt (hn : 9 < n) : namedRegister n = 0 := if_neg (Nat.not_le.mpr hn)

/-- The two numberings agree on 1 to 9; register 0 and the registers named by a letter are
one register to `p`. -/
theorem singleRegister_iff (hn : n < 16) (hw : IsField word v) :
    SingleRegisterLaw h steps g n v word ↔ 1 ≤ n ∧ n ≤ 9 ∨ g.arm.reg.get 0 = v := by
  have hset := exchange_set h steps g hn hw
  have hget (r : Registers) (j : Nat) : (r.set n v).get j = if j = n then v else r.get j :=
    Registers.get_set (by unfold NB_REGISTER; omega)
  refine ⟨fun hlaw => ?_, fun hcond => hset.mono fun g₁ harm => ⟨?_, fun m hm hne => ?_⟩⟩
  · obtain ⟨g₁, ⟨hback, hothers⟩, harm⟩ := (Exchange.and hlaw hset).outcome
    have hback := hexText_injective (hback.reply_unique (exchange_ask hn))
    rw [harm, hget] at hback
    rcases Nat.lt_or_ge 9 n with h9 | h9
    · -- the value read back is that of register 0
      rw [namedRegister_of_gt h9, if_neg (by omega)] at hback
      exact .inr hback.symm
    · rcases Nat.eq_zero_or_pos n with rfl | h0
      · obtain ⟨reply, hbefore, hafter⟩ := hothers 10 (by decide) (by decide)
        have hb := hbefore.reply_unique (exchange_ask (n := 10) (by decide))
        have ha := hafter.reply_unique (exchange_ask (n := 10) (by decide))
        have hsame := hexText_injective (hb.symm.trans ha)
        rw [harm, hget, namedRegister_of_gt (by decide), if_pos rfl] at hsame
        exact .inr hsame
      · exact .inl ⟨h0, h9⟩
  · have hvalue : g₁.arm.reg.get (namedRegister n) = v := by
      rw [harm, hget]
      rcases Nat.lt_or_ge 9 n with h9 | h9
      · rw [namedRegister_of_gt h9, if_neg (by omega)]
        exact hcond.resolve_left (by omega)
      · rw [namedRegister_of_le h9, if_pos rfl]
    rw [← hvalue]
    exact exchange_ask hn
  · refine ⟨_, exchange_ask hm, ?_⟩
    have hvalue : g₁.arm.reg.get (namedRegister m) = g.arm.reg.get (namedRegister m) := by
      rw [harm, hget]
      by_cases heq : namedRegister m = n
      · rw [if_pos heq, heq]
        rcases Nat.lt_or_ge 9 m with h9 | h9
        · -- register 0 was written, and `m` is answered by it
          rw [namedRegister_of_gt h9] at heq
          rw [← heq]
          exact (hcond.resolve_left (by omega)).symm
        · exact absurd (heq.symm.trans (namedRegister_of_le h9)).symm hne
      · rw [if_neg heq]
    rw [← hvalue]
    exact exchange_ask hm

end Law

/-- Register 3 of a fresh session. -/
theorem singleRegister_iff_three :
    SingleRegisterLaw .zeros 0 (session (.ofBytes [])) 3 7 (text "00000007") ↔
      1 ≤ 3 ∧ 3 ≤ 9 ∨ (session (.ofBytes [])).arm.reg.get 0 = 7 :=
  singleRegister_iff (by decide) ⟨rfl, by decide, by decide⟩

/-- After `Pa=00000007` the reply to `pa` is the value of register 0. -/
theorem not_singleRegister_ten :
    ¬ SingleRegisterLaw .zeros 0 (session (.ofBytes [])) 10 7 (text "00000007") := by
  intro hlaw
  have hw : IsField (text "00000007") 7 := ⟨rfl, by decide, by decide⟩
  obtain ⟨g₁, ⟨hback, -⟩, harm⟩ :=
    (Exchange.and hlaw (exchange_set _ _ _ (by decide) hw)).outcome
  have hvalue := hexText_injective (hback.reply_unique (exchange_ask (by decide)))
  rw [harm] at hvalue
  revert hvalue
  decide

end Armator.Sim
