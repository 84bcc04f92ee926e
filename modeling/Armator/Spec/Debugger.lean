import Mathlib.Data.Finset.Card
import Mathlib.Data.Nat.Digits.Lemmas

/-!
# Debug sessions

What a debug session is for: a client reads and writes the registers and the memory of a
processor, sets breakpoints, and has the processor step or run. The processor is any type with
the operations of `Machine`, and nothing here knows the text of a packet. Between client and
server a message may be spoilt; the server says so, and the client sends it again.
-/

namespace Armator.Spec

/-! ## The target -/

/-- What a debugger needs of a processor. -/
structure Machine (κ : Type) where
  register : κ → Nat → BitVec 32
  setRegister : κ → Nat → BitVec 32 → κ
  status : κ → BitVec 32
  /-- R0 to R15 and the status at once. -/
  setRegisters : κ → (Nat → BitVec 32) → BitVec 32 → κ
  size : κ → Nat
  byte : κ → Nat → BitVec 8
  write : κ → BitVec 32 → List (BitVec 8) → κ
  /-- An instruction, with the exception that ends it; nothing if it goes wrong. -/
  step : κ → Option (Int × κ)

/-- The processor under the debugger. -/
structure Target (κ : Type) where
  core : κ
  /-- What the last step ended with. -/
  exception : Int
  breakpoints : Finset (BitVec 32)

def maxBreakpoints : Nat := 1024

/-- The bytes that fit in a reply. -/
def maxRead : Nat := 2045

/-! ## Requests -/

inductive Request where
  | readRegisters
  | writeRegisters (w : Nat → BitVec 32) (status : BitVec 32)
  | readRegister (n : Nat)
  | writeRegister (n : Nat) (v : BitVec 32)
  | readMemory (a : BitVec 32) (n : Nat)
  | writeMemory (a : BitVec 32) (bs : List (BitVec 8))
  | setBreakpoint (a : BitVec 32)
  | removeBreakpoint (a : BitVec 32)
  | step
  | run
  | reason

inductive Failure where
  | outside
  | notWritten
  | noRoom
  | notThere

inductive Reply where
  | ok
  | failed (e : Failure)
  | word (v : BitVec 32)
  | bytes (bs : List (BitVec 8))
  | registers (w : Nat → BitVec 32) (status : BitVec 32)
  | stopped (exception : Int)

namespace Machine

variable {κ : Type} (m : Machine κ)

def bytes (c : κ) (a : BitVec 32) (n : Nat) : List (BitVec 8) :=
  (List.range n).map fun i => m.byte c (a.toNat + i)

/-- `n` bytes at `a` are in the memory and in the address space. -/
def Holds (c : κ) (a : BitVec 32) (n : Nat) : Prop := a.toNat + n ≤ m.size c ∧ a.toNat + n < 2 ^ 32

instance (c : κ) (a : BitVec 32) (n : Nat) : Decidable (m.Holds c a n) :=
  inferInstanceAs (Decidable (_ ∧ _))

/-- A run stops here: at a breakpoint, or for an exception. -/
def Halted (t : Target κ) : Prop := m.register t.core 15 ∈ t.breakpoints ∨ t.exception ≠ 0

/-- One step of the target. -/
def Steps (t t' : Target κ) : Prop :=
  m.step t.core = some (t'.exception, t'.core) ∧ t'.breakpoints = t.breakpoints

/-- At least one step, up to the first that halts. -/
inductive Runs : Target κ → Target κ → Prop where
  | last {t t' : Target κ} : m.Steps t t' → m.Halted t' → Runs t t'
  | more {t t₁ t' : Target κ} : m.Steps t t₁ → ¬ m.Halted t₁ → Runs t₁ t' → Runs t t'

/-- What a request does to the target, and its reply. -/
inductive Serves (t : Target κ) : Request → Reply → Target κ → Prop where
  | readRegisters : Serves t .readRegisters (.registers (m.register t.core) (m.status t.core)) t
  | writeRegisters {w : Nat → BitVec 32} {c : BitVec 32} :
      Serves t (.writeRegisters w c) .ok { t with core := m.setRegisters t.core w c }
  | readRegister {n : Nat} : n ≤ 9 → Serves t (.readRegister n) (.word (m.register t.core n)) t
  | writeRegister {n : Nat} {v : BitVec 32} : n < 16 →
      Serves t (.writeRegister n v) .ok { t with core := m.setRegister t.core n v }
  | readMemory {a : BitVec 32} {n : Nat} : 1 ≤ n → n ≤ maxRead → m.Holds t.core a n →
      Serves t (.readMemory a n) (.bytes (m.bytes t.core a n)) t
  | readOutside {a : BitVec 32} {n : Nat} : m.size t.core ≤ a.toNat →
      Serves t (.readMemory a n) (.failed .outside) t
  | writeMemory {a : BitVec 32} {bs : List (BitVec 8)} : a.toNat < m.size t.core →
      m.Holds t.core a bs.length →
      Serves t (.writeMemory a bs) .ok { t with core := m.write t.core a bs }
  | writeOutside {a : BitVec 32} {bs : List (BitVec 8)} : m.size t.core ≤ a.toNat →
      Serves t (.writeMemory a bs) (.failed .notWritten) t
  | setBreakpoint {a : BitVec 32} : t.breakpoints.card < maxBreakpoints →
      Serves t (.setBreakpoint a) .ok { t with breakpoints := insert a t.breakpoints }
  | tooMany {a : BitVec 32} : ¬ t.breakpoints.card < maxBreakpoints →
      Serves t (.setBreakpoint a) (.failed .noRoom) t
  | removeBreakpoint {a : BitVec 32} : a ∈ t.breakpoints →
      Serves t (.removeBreakpoint a) .ok { t with breakpoints := t.breakpoints.erase a }
  | notThere {a : BitVec 32} : a ∉ t.breakpoints →
      Serves t (.removeBreakpoint a) (.failed .notThere) t
  | step {t' : Target κ} : m.Steps t t' → Serves t .step (.stopped t'.exception) t'
  | run {t' : Target κ} : m.Runs t t' → Serves t .run (.stopped t'.exception) t'
  | reason : Serves t .reason (.stopped t.exception) t

/-- Requests one after the other, with their replies. -/
inductive Executes : Target κ → List Request → List Reply → Target κ → Prop where
  | nil {t : Target κ} : Executes t [] [] t
  | cons {q : Request} {qs : List Request} {r : Reply} {rs : List Reply} {t t₁ t' : Target κ} :
      m.Serves t q r t₁ → Executes t₁ qs rs t' → Executes t (q :: qs) (r :: rs) t'

end Machine

/-! ## Loading an image -/

/-- A request that stores part of the image `img`. -/
def Loads (img : Nat → BitVec 8) (q : Request) : Prop :=
  ∃ a bs, q = .writeMemory a bs ∧ ∀ i < bs.length, bs.getD i 0 = img (a.toNat + i)

/-- The request names the byte at `x`. -/
def Covers (q : Request) (x : Nat) : Prop :=
  ∃ a bs, q = .writeMemory a bs ∧ a.toNat ≤ x ∧ x < a.toNat + bs.length

namespace Machine

variable {κ : Type} {m : Machine κ}

/-- A write changes the bytes it names, and nothing else. -/
structure WritesExactly (m : Machine κ) : Prop where
  byte : ∀ {c : κ} {a : BitVec 32} {bs : List (BitVec 8)} (x : Nat), m.Holds c a bs.length →
    m.byte (m.write c a bs) x =
      if a.toNat ≤ x ∧ x < a.toNat + bs.length then bs.getD (x - a.toNat) 0 else m.byte c x
  register : ∀ (c : κ) (a : BitVec 32) (bs : List (BitVec 8)),
    m.register (m.write c a bs) = m.register c
  status : ∀ (c : κ) (a : BitVec 32) (bs : List (BitVec 8)), m.status (m.write c a bs) = m.status c

variable {img : Nat → BitVec 8} {t t' : Target κ} {q : Request} {qs : List Request}
  {rs : List Reply}

/-- What requests that store parts of an image leave: the image where they store, and
everything else as it was. -/
structure Loaded (m : Machine κ) (img : Nat → BitVec 8) (qs : List Request) (t t' : Target κ) :
    Prop where
  inside : ∀ x, (∃ q ∈ qs, Covers q x) → m.byte t'.core x = img x
  outside : ∀ x, ¬ (∃ q ∈ qs, Covers q x) → m.byte t'.core x = m.byte t.core x
  register : m.register t'.core = m.register t.core
  status : m.status t'.core = m.status t.core
  exception : t'.exception = t.exception
  breakpoints : t'.breakpoints = t.breakpoints

theorem loaded_of_serves (hm : m.WritesExactly) (hq : Loads img q) (hs : m.Serves t q .ok t') :
    m.Loaded img [q] t t' := by
  obtain ⟨a, bs, rfl, himg⟩ := hq
  cases hs with
  | writeMemory _ hold =>
    have hcovers {x : Nat} : (∃ q ∈ [Request.writeMemory a bs], Covers q x) ↔
        a.toNat ≤ x ∧ x < a.toNat + bs.length := by
      constructor
      · rintro ⟨q, hq, a', bs', he, hx⟩
        rw [List.mem_singleton] at hq
        rw [hq] at he
        cases he
        exact hx
      · exact fun hx => ⟨_, List.mem_singleton_self _, a, bs, rfl, hx⟩
    refine ⟨fun x hx => ?_, fun x hx => ?_, hm.register .., hm.status .., rfl, rfl⟩
    · have hx := hcovers.1 hx
      rw [hm.byte x hold, if_pos hx, himg _ (by omega)]
      exact congrArg img (by omega)
    · exact (hm.byte x hold).trans (if_neg fun hc => hx (hcovers.2 hc))

theorem Loaded.cons {t₁ : Target κ} (h₁ : m.Loaded img [q] t t₁) (h : m.Loaded img qs t₁ t') :
    m.Loaded img (q :: qs) t t' where
  inside x hx := by
    by_cases hlater : ∃ q ∈ qs, Covers q x
    · exact h.inside x hlater
    · rw [h.outside x hlater]
      obtain ⟨q', hq', hc⟩ := hx
      obtain rfl | hq' := List.mem_cons.1 hq'
      · exact h₁.inside x ⟨q', List.mem_singleton_self _, hc⟩
      · exact absurd ⟨q', hq', hc⟩ hlater
  outside x hx := by
    rw [h.outside x fun ⟨q', hq', hc⟩ => hx ⟨q', .tail _ hq', hc⟩]
    refine h₁.outside x fun ⟨q', hq', hc⟩ => hx ⟨q', ?_, hc⟩
    rw [List.mem_singleton.1 hq']
    exact .head _
  register := h.register.trans h₁.register
  status := h.status.trans h₁.status
  exception := h.exception.trans h₁.exception
  breakpoints := h.breakpoints.trans h₁.breakpoints

/-- An image may be stored in any parts and in any order. -/
theorem Executes.loaded (hm : m.WritesExactly) (he : m.Executes t qs rs t')
    (hqs : ∀ q ∈ qs, Loads img q) (hrs : ∀ r ∈ rs, r = .ok) : m.Loaded img qs t t' := by
  induction he with
  | nil =>
    exact ⟨fun x ⟨q, hq, _⟩ => absurd hq List.not_mem_nil, fun x _ => rfl, rfl, rfl, rfl, rfl⟩
  | cons hs _ ih =>
    have hok := hrs _ (.head _)
    subst hok
    exact (loaded_of_serves hm (hqs _ (.head _)) hs).cons
      (ih (fun q hq => hqs q (.tail _ hq)) fun r hr => hrs r (.tail _ hr))

end Machine

/-! ## The link -/

/-- What comes to the server. -/
inductive Message where
  | request (q : Request)
  /-- A request that was spoilt on the way. -/
  | garbled
  | ack
  /-- The client asks for the last reply again. -/
  | nack

/-- What the server sends. -/
inductive Output where
  | accepted
  | refused
  | reply (r : Reply)
  /-- A reply that was sent before. -/
  | again (r : Reply)

/-- The server: its target, and the reply it sent last. -/
structure Server (κ : Type) where
  target : Target κ
  last : Option Reply

namespace Machine

variable {κ : Type} (m : Machine κ)

inductive Handles (s : Server κ) : Message → List Output → Server κ → Prop where
  | request {q : Request} {r : Reply} {t : Target κ} : m.Serves s.target q r t →
      Handles s (.request q) [.accepted, .reply r] ⟨t, some r⟩
  | garbled : Handles s .garbled [.refused] s
  | ack : Handles s .ack [] s
  | nack : Handles s .nack (s.last.toList.map .again) s

inductive Converses : Server κ → List Message → List Output → Server κ → Prop where
  | nil {s : Server κ} : Converses s [] [] s
  | cons {x : Message} {xs : List Message} {os os' : List Output} {s s₁ s' : Server κ} :
      m.Handles s x os s₁ → Converses s₁ xs os' s' → Converses s (x :: xs) (os ++ os') s'

end Machine

def Message.request? : Message → Option Request
  | request q => some q
  | _ => none

def Output.reply? : Output → Option Reply
  | reply r => some r
  | _ => none

section Link

variable {κ : Type} {m : Machine κ} {s s' : Server κ} {xs : List Message} {os : List Output}

theorem reply?_again (r : Option Reply) :
    (r.toList.map Output.again).filterMap Output.reply? = [] := by
  cases r <;> rfl

/-- Each request is executed once, in its order, whatever was spoilt or sent again. -/
theorem Machine.Converses.executes (hc : m.Converses s xs os s') :
    m.Executes s.target (xs.filterMap Message.request?) (os.filterMap Output.reply?) s'.target := by
  induction hc with
  | nil => exact .nil
  | cons hh _ ih =>
    cases hh with
    | request hs => exact .cons hs ih
    | garbled | ack => exact ih
    | nack =>
      rw [List.filterMap_append, reply?_again, List.nil_append]
      exact ih

end Link

end Armator.Spec
