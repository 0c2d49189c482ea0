import PagedFilter.Filter.Operation
import PagedFilter.Proofs.Storage.Runs
namespace PagedFilter

inductive KeyStep
  | set (key : ByteArray)
  | test (key : ByteArray)
  | clear
deriving DecidableEq

namespace PagedBits

def step (way : Nat) (bits : PagedBits) : KeyStep → Except Fault (Answer × PagedBits)
  | .set key => return (← bits.set way key).map .flag id
  | .test key => return (.flag (← bits.test way key), bits)
  | .clear => return (.done, bits.clear)

def run (way : Nat) (bits : PagedBits) : List KeyStep → Except Fault (List Answer × PagedBits)
  | [] => return ([], bits)
  | s :: steps => do
    let (answer, bits) ← bits.step way s
    let (answers, bits) ← bits.run way steps
    return (answer :: answers, bits)

def answerTo (way : Nat) (bits : PagedBits) : KeyStep → Answer
  | .set key => .flag (!bits.covers way key)
  | .test key => .flag (bits.covers way key)
  | .clear => .done

def afterStep (way : Nat) (bits : PagedBits) : KeyStep → PagedBits
  | .set key => if bits.covers way key then bits else bits.inserted way key
  | .test _ => bits
  | .clear => bits.clear

variable {bits : PagedBits} {way : Nat}

theorem Whole.step_test (h : bits.Whole) (hway : way ≤ 8) (key : ByteArray) :
    bits.step way (.test key) = .ok (.flag (bits.covers way key), bits) := by
  rw [step, h.test_eq hway, ok_bind]
  rfl

theorem Whole.step_eq (h : bits.Whole) (hway : way ≤ 8)
    (hroom : bits.uniqueCount ≠ 0xffffffffffffffff) (s : KeyStep) :
    bits.step way s = .ok (bits.answerTo way s, bits.afterStep way s) := by
  cases s with
  | set key =>
    rw [step, h.set_eq hway, answerTo, afterStep, if_neg hroom]
    cases bits.covers way key <;> rfl
  | test key => exact h.step_test hway key
  | clear => rfl

theorem SamePages.afterStep (bits : PagedBits) (way : Nat) (s : KeyStep) :
    SamePages bits (bits.afterStep way s) := by
  cases s with
  | set key =>
    rw [PagedBits.afterStep]
    split
    · exact .refl bits
    · exact .inserted bits way key
  | test key => exact .refl bits
  | clear => exact .clear bits

theorem Whole.samePages_of_step (h : bits.Whole) (hway : way ≤ 8) {s : KeyStep} {answer : Answer}
    {after : PagedBits} (hstep : bits.step way s = .ok (answer, after)) :
    SamePages bits after := by
  cases s with
  | set key =>
    obtain ⟨⟨new, next⟩, hset, hnext⟩ := bind_eq_ok.mp hstep
    cases hnext
    exact (h.inserts_of_set hway hset).2.pages
  | test key =>
    rw [h.step_test hway] at hstep
    cases hstep
    exact .refl bits
  | clear =>
    cases hstep
    exact .clear bits

theorem Whole.samePages_of_run (h : bits.Whole) (hway : way ≤ 8) {steps : List KeyStep}
    {answers : List Answer} {after : PagedBits}
    (hrun : bits.run way steps = .ok (answers, after)) : SamePages bits after := by
  induction steps generalizing bits answers with
  | nil =>
    cases hrun
    exact .refl after
  | cons s steps ih =>
    obtain ⟨⟨answer, next⟩, hstep, hrest⟩ := bind_eq_ok.mp hrun
    obtain ⟨⟨answers, last⟩, hlast, heq⟩ := bind_eq_ok.mp hrest
    cases heq
    have hnext := h.samePages_of_step hway hstep
    exact hnext.trans (ih (hnext.whole h) hlast)

theorem count_afterStep (hroom : bits.uniqueCount ≠ 0xffffffffffffffff) (way : Nat)
    (s : KeyStep) :
    (bits.afterStep way s).uniqueCount.toNat ≤ bits.uniqueCount.toNat + 1 := by
  cases s with
  | set key =>
    rw [afterStep]
    split
    · exact Nat.le_succ _
    · exact Nat.le_of_eq (inserts_inserted bits way key hroom).count_eq
  | test key => exact Nat.le_succ _
  | clear => exact Nat.zero_le _

theorem Whole.counted_afterStep (h : bits.Whole) (hcounted : bits.Counted) (way : Nat)
    (s : KeyStep) : (bits.afterStep way s).Counted := by
  cases s with
  | set key =>
    rw [afterStep]
    cases hcovers : bits.covers way key with
    | true => exact hcounted
    | false =>
      have hinserts : Inserts way [key] (!bits.covers way key).toNat bits
          (bits.inserted way key) := by
        rw [hcovers]
        exact inserts_inserted bits way key (h.room_of_counted hcounted)
      exact h.counted_of_inserts hcounted hinserts
  | test key => exact hcounted
  | clear => exact counted_of_eq_zero rfl

theorem Whole.run_cons (h : bits.Whole) (hway : way ≤ 8)
    (hroom : bits.uniqueCount ≠ 0xffffffffffffffff) (s : KeyStep) (steps : List KeyStep) :
    bits.run way (s :: steps) = ((bits.afterStep way s).run way steps).map fun (answers, after) =>
      (bits.answerTo way s :: answers, after) := by
  rw [run, h.step_eq hway hroom, ok_bind]
  dsimp only
  cases (bits.afterStep way s).run way steps <;> rfl

/-- A run ends wherever `P`, which may depend on how many steps are still to come, leaves room
for the next one and is kept by it. -/
private theorem Whole.run_total (hway : way ≤ 8) (P : Nat → PagedBits → Prop)
    (hroom : ∀ k bits, bits.Whole → P (k + 1) bits → bits.uniqueCount ≠ 0xffffffffffffffff)
    (hkeep : ∀ k bits s, bits.Whole → P (k + 1) bits → P k (bits.afterStep way s))
    (h : bits.Whole) (steps : List KeyStep) (k : Nat) (hP : P (steps.length + k) bits) :
    ∃ answers after, bits.run way steps = .ok (answers, after) ∧ P k after := by
  induction steps generalizing bits with
  | nil =>
    rw [List.length_nil, Nat.zero_add] at hP
    exact ⟨[], bits, rfl, hP⟩
  | cons s steps ih =>
    rw [List.length_cons, Nat.succ_add] at hP
    obtain ⟨answers, after, hrun, hafter⟩ :=
      ih ((SamePages.afterStep bits way s).whole h) (hkeep _ _ s h hP)
    refine ⟨bits.answerTo way s :: answers, after, ?_, hafter⟩
    rw [h.run_cons hway (hroom _ _ h hP), hrun]
    rfl

theorem Whole.run_of_counted (h : bits.Whole) (hway : way ≤ 8) (hcounted : bits.Counted)
    (steps : List KeyStep) :
    ∃ answers after, bits.run way steps = .ok (answers, after) ∧ after.Counted :=
  h.run_total hway (fun _ bits => bits.Counted) (fun _ _ hb hc => hb.room_of_counted hc)
    (fun _ _ s hb hc => hb.counted_afterStep hc way s) steps 0 hcounted

theorem Whole.run_of_lt (h : bits.Whole) (hway : way ≤ 8) (steps : List KeyStep) (k : Nat)
    (hcount : bits.uniqueCount.toNat + (steps.length + k) < 2 ^ 64) :
    ∃ answers after, bits.run way steps = .ok (answers, after) ∧
      after.uniqueCount.toNat + k < 2 ^ 64 := by
  have hroom (k : Nat) (bits : PagedBits) (hlt : bits.uniqueCount.toNat + (k + 1) < 2 ^ 64) :
      bits.uniqueCount ≠ 0xffffffffffffffff := room_iff.mpr (by omega)
  refine h.run_total hway (fun k bits => bits.uniqueCount.toNat + k < 2 ^ 64)
    (fun k bits _ hlt => hroom k bits hlt) ?_ steps k hcount
  intro k bits s _ hlt
  have hone := count_afterStep (hroom k bits hlt) way s
  omega

end PagedBits
end PagedFilter
