import Mathlib.Data.FinEnum
import Mathlib.Data.Int.CardIntervalMod
import Mathlib.Data.Set.Card
import MergeMiningMonitor.AuxPow.Commitment

/-!
# AuxPoW — Slots

The generator that assigns a slot of the tree to a chain (`auxpow_expected_index`).  Its two steps are
multiplications by an odd number, which can be undone modulo every power of two.  So a slot depends
on the nonce and on the chain id by their low bits alone, and on each of them one to one.

Two chains share a slot exactly when their ids agree modulo the size of the tree, whatever the nonce,
and every slot is hit by equally many nonces (`slots_separate_by_low_bits`).
-/

namespace MergeMiningMonitor.AuxPow

/-- The multiplier of the generator. -/
def slotMultiplier : Nat := 1103515245

/-- The slot, without the wrapping of the two steps. -/
theorem toNat_auxpowExpectedIndex (nonce chainId : UInt32) {k : Nat} (hk : k < 32) :
    (auxpowExpectedIndex nonce chainId k).toNat =
      ((nonce.toNat * slotMultiplier + 12345 + chainId.toNat) * slotMultiplier + 12345) % 2 ^ k := by
  have hdvd : 2 ^ k ∣ 2 ^ 32 := Nat.pow_dvd_pow 2 hk.le
  rw [auxpowExpectedIndex, UInt32.toNat_mod, toNat_treeWidth hk]
  simp only [UInt32.toNat_add, UInt32.toNat_mul, UInt32.toNat_ofNat]
  rw [Nat.mod_mod_of_dvd _ hdvd]
  refine Nat.ModEq.add_right _ ((Nat.mod_modEq _ _).of_dvd hdvd |>.trans ?_)
  refine Nat.ModEq.mul_right _ ((Nat.mod_modEq _ _).of_dvd hdvd |>.trans ?_)
  refine Nat.ModEq.add_right _ ((Nat.mod_modEq _ _).of_dvd hdvd |>.trans ?_)
  exact Nat.ModEq.add_right _ ((Nat.mod_modEq _ _).of_dvd hdvd)

theorem coprime_slotMultiplier (k : Nat) : Nat.gcd (2 ^ k) slotMultiplier = 1 :=
  Nat.Coprime.pow_left k (by decide)

/-- A step of the generator can be undone. -/
theorem mul_slotMultiplier_modEq {k a b : Nat} :
    a * slotMultiplier ≡ b * slotMultiplier [MOD 2 ^ k] ↔ a ≡ b [MOD 2 ^ k] :=
  ⟨Nat.ModEq.cancel_right_of_coprime (coprime_slotMultiplier k), fun h => h.mul_right _⟩

theorem auxpowExpectedIndex_eq_iff {nonce nonce' c c' : UInt32} {k : Nat} (hk : k < 32) :
    auxpowExpectedIndex nonce c k = auxpowExpectedIndex nonce' c' k ↔
      nonce.toNat * slotMultiplier + 12345 + c.toNat ≡
        nonce'.toNat * slotMultiplier + 12345 + c'.toNat [MOD 2 ^ k] := by
  rw [← UInt32.toNat_inj, toNat_auxpowExpectedIndex nonce c hk, toNat_auxpowExpectedIndex nonce' c' hk]
  refine Iff.trans ?_ mul_slotMultiplier_modEq
  exact ⟨Nat.ModEq.add_right_cancel' _, fun h => h.add_right _⟩

/-- Two chains at one nonce. -/
theorem auxpowExpectedIndex_eq_iff_chain {nonce c c' : UInt32} {k : Nat} (hk : k < 32) :
    auxpowExpectedIndex nonce c k = auxpowExpectedIndex nonce c' k ↔
      c.toNat ≡ c'.toNat [MOD 2 ^ k] := by
  rw [auxpowExpectedIndex_eq_iff hk]
  exact ⟨Nat.ModEq.add_left_cancel' _, fun h => h.add_left _⟩

/-- One chain at two nonces. -/
theorem auxpowExpectedIndex_eq_iff_nonce {nonce nonce' c : UInt32} {k : Nat} (hk : k < 32) :
    auxpowExpectedIndex nonce c k = auxpowExpectedIndex nonce' c k ↔
      nonce.toNat ≡ nonce'.toNat [MOD 2 ^ k] := by
  refine (auxpowExpectedIndex_eq_iff hk).trans (Iff.trans ?_ mul_slotMultiplier_modEq)
  constructor
  · intro h
    have hstep : nonce.toNat * slotMultiplier + 12345 ≡ nonce'.toNat * slotMultiplier + 12345
        [MOD 2 ^ k] := h.add_right_cancel' c.toNat
    exact hstep.add_right_cancel' 12345
  · intro h
    exact (h.add_right 12345).add_right c.toNat

/-- The nonce that puts a chain at a slot. -/
def nonceOfSlot (chainId slot : UInt32) : UInt32 :=
  ((slot - 12345) * 4005161829 - chainId - 12345) * 4005161829

theorem auxpowExpectedIndex_nonceOfSlot (chainId : UInt32) {slot : UInt32} {k : Nat} (hk : k < 32)
    (hslot : slot.toNat < 2 ^ k) : auxpowExpectedIndex (nonceOfSlot chainId slot) chainId k = slot := by
  have hinverse : ∀ x : UInt32, x * 4005161829 * 1103515245 = x := by
    intro x
    rw [UInt32.mul_assoc]
    exact UInt32.mul_one x
  have hfirst : nonceOfSlot chainId slot * 1103515245 + 12345 + chainId =
      (slot - 12345) * 4005161829 := by
    rw [nonceOfSlot, hinverse, UInt32.sub_add_cancel, UInt32.sub_add_cancel]
  have hindex : auxpowExpectedIndex (nonceOfSlot chainId slot) chainId k = slot % treeWidth k := by
    rw [auxpowExpectedIndex]
    simp only [hfirst]
    rw [hinverse, UInt32.sub_add_cancel]
  rw [hindex, ← UInt32.toNat_inj, UInt32.toNat_mod, toNat_treeWidth hk, Nat.mod_eq_of_lt hslot]

/-- The words of a residue class. -/
theorem ncard_modEq (v : UInt32) {k : Nat} (hk : k < 32) :
    {nonce : UInt32 | nonce.toNat ≡ v.toNat [MOD 2 ^ k]}.ncard = 2 ^ (32 - k) := by
  have hcount := Nat.count_modEq_card (2 ^ 32) (Nat.two_pow_pos k) v.toNat
  rw [Nat.mod_eq_zero_of_dvd (Nat.pow_dvd_pow 2 hk.le), if_neg (Nat.not_lt_zero _), Nat.add_zero,
    Nat.pow_div hk.le (by decide), Nat.count_eq_card_filter_range] at hcount
  rw [← hcount, ← Set.ncard_coe_finset]
  refine Set.ncard_congr (fun nonce _ => nonce.toNat) (fun nonce hnonce => ?_)
    (fun a b _ _ h => UInt32.toNat_inj.mp h) fun n hn => ?_
  · rw [Finset.coe_filter]
    exact ⟨Finset.mem_range.mpr nonce.toNat_lt, hnonce⟩
  · rw [Finset.coe_filter] at hn
    have hsize : n < 2 ^ 32 := Finset.mem_range.mp hn.1
    have htoNat : (UInt32.ofNat n).toNat = n := UInt32.toNat_ofNat_of_lt' hsize
    refine ⟨UInt32.ofNat n, ?_, htoNat⟩
    rw [Set.mem_ofPred_eq, htoNat]
    exact hn.2

/-- **Chains are separated by their low bits.**  At a depth below 32 two chains have the same slot
exactly when their ids are congruent modulo the size of the tree.  So whether they collide does not
depend on the nonce, and every slot of the tree is the slot of a chain under `2 ^ (32 - k)` nonces. -/
theorem slots_separate_by_low_bits {k : Nat} (hk : k < 32) :
    (∀ nonce c₁ c₂ : UInt32, auxpowExpectedIndex nonce c₁ k = auxpowExpectedIndex nonce c₂ k ↔
      c₁.toNat ≡ c₂.toNat [MOD 2 ^ k]) ∧
    (∀ nonce nonce' c₁ c₂ : UInt32, auxpowExpectedIndex nonce c₁ k = auxpowExpectedIndex nonce c₂ k ↔
      auxpowExpectedIndex nonce' c₁ k = auxpowExpectedIndex nonce' c₂ k) ∧
    ∀ chainId slot : UInt32, slot.toNat < 2 ^ k →
      {nonce : UInt32 | auxpowExpectedIndex nonce chainId k = slot}.ncard = 2 ^ (32 - k) := by
  refine ⟨fun _ _ _ => auxpowExpectedIndex_eq_iff_chain hk, fun _ _ _ _ => ?_,
    fun chainId slot hslot => ?_⟩
  · rw [auxpowExpectedIndex_eq_iff_chain hk, auxpowExpectedIndex_eq_iff_chain hk]
  · rw [← ncard_modEq (nonceOfSlot chainId slot) hk]
    refine congrArg Set.ncard (Set.ext fun nonce => ?_)
    rw [Set.mem_ofPred_eq, Set.mem_ofPred_eq, ← auxpowExpectedIndex_eq_iff_nonce (c := chainId) hk,
      auxpowExpectedIndex_nonceOfSlot chainId hk hslot]

theorem slots_separate_by_low_bits_eight :
    auxpowExpectedIndex 77 1 3 = auxpowExpectedIndex 77 9 3 :=
  ((slots_separate_by_low_bits (by decide : 3 < 32)).1 77 1 9).mpr rfl

end MergeMiningMonitor.AuxPow
