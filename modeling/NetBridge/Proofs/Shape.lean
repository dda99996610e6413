import NetBridge.Shape

/-! # Values within a width, and labels

A value fits a mask if it keeps all its bits under it. A port that is active-low complements
the bits of a value within its width and no others. The label of a port is read back as the
direction and the name that it was made of. -/
namespace NetBridge.Word

variable {v w mask : Word}

theorem getElem_of_fits (fits : v &&& mask = v) {i : Nat} (hi : i < 64) (h : v[i] = true) :
    mask[i] = true := by
  rw [← fits, BitVec.getElem_and] at h
  exact (Bool.and_eq_true_iff.mp h).2

theorem fits_of_and_not_eq_zero (h : v &&& ~~~mask = 0) : v &&& mask = v := by
  ext i hi
  have bit : (v &&& ~~~mask)[i] = false := by
    rw [h]
    exact BitVec.getElem_zero hi
  rw [BitVec.getElem_and, BitVec.getElem_not] at bit
  rw [BitVec.getElem_and]
  cases hm : mask[i] <;> simp_all

/-- What fits a mask is no larger. -/
theorem le_of_fits (fits : v &&& mask = v) : v ≤ mask := by
  rw [← fits, BitVec.le_def, BitVec.toNat_and]
  exact Nat.and_le_right

theorem fits_xor (hv : v &&& mask = v) (hw : w &&& mask = w) : (v ^^^ w) &&& mask = v ^^^ w := by
  ext i hi
  have bv := getElem_of_fits hv hi
  have bw := getElem_of_fits hw hi
  rw [BitVec.getElem_and, BitVec.getElem_xor]
  cases hm : mask[i] <;> simp_all

/-- What becomes of a value on its way through a port, which may be active-low. -/
def crossed (invert : Bool) (width : Nat) (v : Word) : Word :=
  if invert then ~~~v &&& ones width else v

/-- For a value that fits, that is what the mask of the port makes of it. -/
theorem xor_eq_crossed {width : Nat} (invert : Bool) (fits : v &&& ones width = v) :
    v ^^^ (if invert then ones width else 0) = crossed invert width v := by
  cases invert with
  | false => exact BitVec.xor_zero
  | true =>
    rw [crossed, if_pos rfl, if_pos rfl]
    ext i hi
    have bit := getElem_of_fits fits hi
    rw [BitVec.getElem_xor, BitVec.getElem_and, BitVec.getElem_not]
    cases hv : v[i] <;> simp_all

end NetBridge.Word

namespace NetBridge.PortDirection

theorem toList_label (d : PortDirection) (name : String) :
    (d.label name).toList = (if d = .input then 'i' else 'o') :: '_' :: name.toList := by
  cases d with
  | input =>
    change ("i" ++ "_" ++ name).toList = _
    simp
  | output =>
    change ("o" ++ "_" ++ name).toList = _
    simp

theorem parseLabel_label (d : PortDirection) (name : String) :
    parseLabel (d.label name) = some (d, name) := by
  cases d <;> simp [parseLabel, toList_label]

theorem eq_label_of_parseLabel {label name : String} {d : PortDirection}
    (h : parseLabel label = some (d, name)) : label = d.label name := by
  refine String.toList_injective ?_
  rw [toList_label]
  simp only [parseLabel] at h
  split at h
  · rename_i rest hl
    obtain ⟨rfl, rfl⟩ : input = d ∧ String.ofList rest = name := by simpa using h
    simp [hl]
  · rename_i rest hl
    obtain ⟨rfl, rfl⟩ : output = d ∧ String.ofList rest = name := by simpa using h
    simp [hl]
  · cases h

theorem label_injective {d e : PortDirection} {a b : String} (h : d.label a = e.label b) :
    d = e ∧ a = b := by
  have pairs : some (d, a) = some (e, b) := by
    rw [← parseLabel_label d a, h, parseLabel_label]
  exact Prod.mk.inj (Option.some.inj pairs)

end NetBridge.PortDirection
