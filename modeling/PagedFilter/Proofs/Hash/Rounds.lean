import Mathlib.Logic.Function.Basic
import PagedFilter.Hash.Digest
/-! The mixer and the finisher are bijections: what a round folds in still stands elsewhere. -/
namespace PagedFilter

def Turns (r : UInt64) : Prop := 0 < r.toNat ∧ r.toNat < 64

instance (r : UInt64) : Decidable (Turns r) := inferInstanceAs (Decidable (_ ∧ _))

theorem toNat_rest {r : UInt64} (hr : Turns r) : (64 - r).toNat = 64 - r.toNat := by
  obtain ⟨hpos, hlt⟩ := hr
  have hwidth : (64 : UInt64).toNat = 64 := by decide
  rw [UInt64.toNat_sub, hwidth]
  omega

theorem Turns.rest {r : UInt64} (hr : Turns r) : Turns (64 - r) := by
  have hrest := toNat_rest hr
  obtain ⟨hpos, hlt⟩ := hr
  constructor <;> omega

/-- Rotation moves every bit up and brings the highest ones in from below. -/
theorem getLsbD_rotateLeft (x : UInt64) {r : UInt64} (hr : Turns r) {i : Nat} (hi : i < 64) :
    (rotateLeft x r).toBitVec.getLsbD i = x.toBitVec.getLsbD ((i + (64 - r.toNat)) % 64) := by
  obtain ⟨hpos, hlt⟩ := id hr
  have hrest := toNat_rest hr
  have hwidth : (64 : BitVec 64).toNat = 64 := by decide
  have hup : (x <<< r).toBitVec = x.toBitVec <<< r.toNat := by
    rw [UInt64.toBitVec_shiftLeft, BitVec.shiftLeft_eq', BitVec.toNat_umod, UInt64.toNat_toBitVec,
      hwidth, Nat.mod_eq_of_lt hlt]
  have hdown : (x >>> (64 - r)).toBitVec = x.toBitVec >>> (64 - r.toNat) := by
    rw [UInt64.toBitVec_shiftRight, BitVec.ushiftRight_eq', BitVec.toNat_umod,
      UInt64.toNat_toBitVec, hwidth, hrest, Nat.mod_eq_of_lt (by omega)]
  rw [rotateLeft, UInt64.toBitVec_or, hup, hdown, BitVec.getLsbD_or, BitVec.getLsbD_shiftLeft,
    BitVec.getLsbD_ushiftRight]
  by_cases hlow : i < r.toNat
  · have hindex : (i + (64 - r.toNat)) % 64 = 64 - r.toNat + i := by omega
    simp [hlow, hindex]
  · have hindex : (i + (64 - r.toNat)) % 64 = i - r.toNat := by omega
    have hpast : x.toBitVec.getLsbD (64 - r.toNat + i) = false :=
      BitVec.getLsbD_of_ge _ _ (by omega)
    simp [hlow, hi, hindex, hpast]

theorem rotateLeft_rest (x : UInt64) {r : UInt64} (hr : Turns r) :
    rotateLeft (rotateLeft x r) (64 - r) = x := by
  apply UInt64.toBitVec_inj.mp
  apply BitVec.eq_of_getLsbD_eq
  intro i hi
  have hrest := toNat_rest hr
  obtain ⟨hpos, hlt⟩ := id hr
  rw [getLsbD_rotateLeft _ hr.rest hi, getLsbD_rotateLeft _ hr (Nat.mod_lt _ (by decide)), hrest]
  congr 1
  omega

theorem rotateLeft_of_rest (x : UInt64) {r : UInt64} (hr : Turns r) :
    rotateLeft (rotateLeft x (64 - r)) r = x := by
  have hback : 64 - (64 - r) = r := by
    rw [UInt64.sub_eq_iff_eq_add, UInt64.add_comm, UInt64.sub_add_cancel]
  have hrest := rotateLeft_rest x hr.rest
  rwa [hback] at hrest

namespace Registers

theorem turn_bijective : Function.Bijective turn := by
  apply Function.bijective_iff_has_inverse.mpr
  exact ⟨fun s => ⟨s.d, s.a, s.b, s.c⟩, fun _ => rfl, fun _ => rfl⟩

def undoMixRound (s : Registers) (r : UInt64) : Registers :=
  ⟨s.d ^^^ s.b, s.a, rotateLeft (s.b - s.c) (64 - r), s.c⟩

theorem mixRound_bijective {r : UInt64} (hr : Turns r) : Function.Bijective (mixRound · r) := by
  apply Function.bijective_iff_has_inverse.mpr
  refine ⟨(undoMixRound · r), ?_, ?_⟩
  · intro s
    simp only [mixRound, turn, undoMixRound, UInt64.add_sub_cancel, rotateLeft_rest _ hr,
      UInt64.xor_assoc, UInt64.xor_self, UInt64.xor_zero]
  · intro s
    simp only [mixRound, turn, undoMixRound, UInt64.sub_add_cancel, rotateLeft_of_rest _ hr,
      UInt64.xor_assoc, UInt64.xor_self, UInt64.xor_zero]

def undoFinishRound (s : Registers) (r : UInt64) : Registers :=
  let c := rotateLeft s.b (64 - r)
  ⟨s.d, s.a, c, (s.c - s.b) ^^^ c⟩

theorem finishRound_bijective {r : UInt64} (hr : Turns r) :
    Function.Bijective (finishRound · r) := by
  apply Function.bijective_iff_has_inverse.mpr
  refine ⟨(undoFinishRound · r), ?_, ?_⟩
  · intro s
    simp only [finishRound, turn, undoFinishRound, UInt64.add_sub_cancel, rotateLeft_rest _ hr,
      UInt64.xor_assoc, UInt64.xor_self, UInt64.xor_zero]
  · intro s
    simp only [finishRound, turn, undoFinishRound, UInt64.sub_add_cancel, rotateLeft_of_rest _ hr,
      UInt64.xor_assoc, UInt64.xor_self, UInt64.xor_zero]

/-- Rounds that can be undone one by one can be undone together. -/
theorem foldl_bijective {round : Registers → UInt64 → Registers} {amounts : List UInt64}
    (h : ∀ r ∈ amounts, Function.Bijective (round · r)) :
    Function.Bijective (fun s => amounts.foldl round s) := by
  induction amounts with
  | nil => exact Function.bijective_id
  | cons r amounts ih =>
    have hfirst := h r List.mem_cons_self
    have hrest := ih fun q hq => h q (List.mem_cons_of_mem r hq)
    exact hrest.comp hfirst

theorem turns_of_all {amounts : List UInt64} (h : amounts.all fun r => decide (Turns r)) :
    ∀ r ∈ amounts, Turns r :=
  fun r hr => of_decide_eq_true (List.all_eq_true.mp h r hr)

theorem mix_bijective : Function.Bijective mix := by
  have hturns : ∀ r ∈ mixRotations, Turns r := turns_of_all (by decide)
  exact foldl_bijective fun r hr => mixRound_bijective (hturns r hr)

theorem finish_bijective : Function.Bijective finish := by
  have hturns : ∀ r ∈ finishRotations, Turns r := turns_of_all (by decide)
  exact turn_bijective.comp (foldl_bijective fun r hr => finishRound_bijective (hturns r hr))

end Registers
end PagedFilter
