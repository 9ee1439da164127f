import Mathlib.Algebra.BigOperators.Group.List.Basic
import HardwareDesign.Location

namespace HardwareDesign

namespace ValueType

inductive WidthFault where
  | aliasLeft
  | overflow
deriving DecidableEq

/-- A product of words that drops the bits that do not fit, and one that fails if there are any. -/
def wrapping (a b : UInt64) : Except WidthFault UInt64 := .ok (a * b)

def checked (a b : UInt64) : Except WidthFault UInt64 :=
  if a.toNat * b.toNat < 2 ^ 64 then .ok (a * b) else .error .overflow

lemma sizeOf_strip_le (t : ValueType) : sizeOf t.strip ≤ sizeOf t := by
  induction t with
  | named name inner ih =>
    rw [strip, named.sizeOf_spec]
    omega
  | _ => exact Nat.le_refl _

lemma sizeOf_element_lt {t element : ValueType} {length : UInt64} (h : t.strip = array element length) :
    sizeOf element < sizeOf t := by
  have hle := sizeOf_strip_le t
  rw [h, array.sizeOf_spec] at hle
  omega

def wordWidth (times : UInt64 → UInt64 → Except WidthFault UInt64) (t : ValueType) : Except WidthFault UInt64 :=
  match h : t.strip with
  | .int width => .ok width
  | .array element length => do
    have _smaller := sizeOf_element_lt h
    times (← element.wordWidth times) length
  | .named _ _ => .error .aliasLeft
termination_by sizeOf t

def unaliased : ValueType → ValueType
  | int width => int width
  | array element length => array element.unaliased length
  | named _ inner => inner.unaliased

def lengths : ValueType → List UInt64
  | int _ => []
  | array element length => length :: element.lengths
  | named _ inner => inner.lengths

def innermost : ValueType → UInt64
  | int width => width
  | array element _ => element.innermost
  | named _ inner => inner.innermost

/-- No product on the way overflows. -/
def Fits : ValueType → Prop
  | int _ => True
  | array element length => element.Fits ∧ element.bitwidth * length.toNat < 2 ^ 64
  | named _ inner => inner.Fits

instance decidableFits : DecidablePred Fits
  | int _ => inferInstanceAs (Decidable True)
  | array element length =>
    have := decidableFits element
    inferInstanceAs (Decidable (element.Fits ∧ element.bitwidth * length.toNat < 2 ^ 64))
  | named _ inner => decidableFits inner

variable {t u : ValueType} {times : UInt64 → UInt64 → Except WidthFault UInt64} {w length : UInt64}

lemma Fits.bitwidth_lt (h : t.Fits) : t.bitwidth < 2 ^ 64 := by
  induction t with
  | int w => exact w.toNat_lt
  | array element length => exact h.2
  | named name inner ih => exact ih h

lemma strip_ne_named (t : ValueType) (name : String) (inner : ValueType) : t.strip ≠ named name inner := by
  induction t with
  | named _ _ ih => exact ih
  | _ => exact fun h => by cases h

lemma strip_strip (t : ValueType) : t.strip.strip = t.strip := by
  induction t with
  | named _ _ ih => exact ih
  | _ => rfl

lemma wordWidth_int (times : UInt64 → UInt64 → Except WidthFault UInt64) (w : UInt64) :
    (int w).wordWidth times = .ok w := by
  rw [wordWidth]
  rfl

lemma wordWidth_array (times : UInt64 → UInt64 → Except WidthFault UInt64) (element : ValueType) (length : UInt64) :
    (array element length).wordWidth times = (element.wordWidth times).bind (times · length) := by
  rw [wordWidth]
  rfl

lemma wordWidth_named (times : UInt64 → UInt64 → Except WidthFault UInt64) (name : String) (inner : ValueType) :
    (named name inner).wordWidth times = inner.wordWidth times := by
  rw [wordWidth, wordWidth]
  rfl

lemma width_eq_ofNat (t : ValueType) : t.width = UInt64.ofNat t.bitwidth := by
  induction t with
  | int w => rw [width, bitwidth, UInt64.ofNat_toNat]
  | array element length ih => rw [width, bitwidth, UInt64.ofNat_mul, UInt64.ofNat_toNat, ih]
  | named name inner ih => rw [width, bitwidth, ih]

lemma toNat_width (hfits : t.bitwidth < 2 ^ 64) : t.width.toNat = t.bitwidth := by
  rw [width_eq_ofNat, UInt64.toNat_ofNat_of_lt' hfits]

lemma wordWidth_wrapping (t : ValueType) : t.wordWidth wrapping = .ok t.width := by
  induction t with
  | int w => rw [wordWidth_int, width]
  | array element length ih =>
    rw [wordWidth_array, ih, width]
    rfl
  | named name inner ih => rw [wordWidth_named, ih, width]

lemma wordWidth_checked (t : ValueType) :
    t.wordWidth checked = if t.Fits then .ok t.width else .error .overflow := by
  induction t with
  | int w =>
    have hint : (int w).Fits := trivial
    rw [wordWidth_int, if_pos hint, width]
  | array element length ih =>
    rw [wordWidth_array, ih]
    by_cases helement : element.Fits
    · have hword : element.width.toNat = element.bitwidth := toNat_width helement.bitwidth_lt
      simp only [Fits, helement, if_pos, true_and, Except.bind, checked, hword, width]
    · simp only [Fits, helement, if_neg, false_and, Except.bind, not_false_eq_true]
  | named name inner ih =>
    rw [wordWidth_named, ih, width]
    rfl

lemma fits_of_lengths (h : 0 ∉ t.lengths) (hfits : t.bitwidth < 2 ^ 64) : t.Fits := by
  induction t with
  | int w => trivial
  | array element length ih =>
    rw [lengths, List.mem_cons, not_or] at h
    have hpos : 0 < length.toNat := Nat.pos_of_ne_zero fun h0 => h.1 (UInt64.toNat.inj h0.symm)
    have helement : element.bitwidth < 2 ^ 64 := Nat.lt_of_le_of_lt (Nat.le_mul_of_pos_right _ hpos) hfits
    exact ⟨ih h.2 helement, hfits⟩
  | named name inner ih => exact ih h hfits

def sameWidth (times : UInt64 → UInt64 → Except WidthFault UInt64) (t u : ValueType) : Except WidthFault Bool := do
  return (← t.wordWidth times) == (← u.wordWidth times)

lemma sameWidth_wrapping (t u : ValueType) : t.sameWidth wrapping u = .ok (t.width == u.width) := by
  rw [sameWidth, wordWidth_wrapping, wordWidth_wrapping]
  rfl

lemma sameWidth_checked (t u : ValueType) :
    t.sameWidth checked u = if t.Fits ∧ u.Fits then .ok (t.width == u.width) else .error .overflow := by
  rw [sameWidth, wordWidth_checked, wordWidth_checked]
  by_cases ht : t.Fits
  · by_cases hu : u.Fits
    · simp only [ht, hu, and_self, if_true]
      rfl
    · simp only [ht, hu, and_false, if_true, if_false]
      rfl
  · simp only [ht, false_and, if_false]
    rfl

lemma wordWidth_unaliased (times : UInt64 → UInt64 → Except WidthFault UInt64) (t : ValueType) :
    t.unaliased.wordWidth times = t.wordWidth times := by
  induction t with
  | int w => rfl
  | array element length ih => rw [unaliased, wordWidth_array, wordWidth_array, ih]
  | named name inner ih => rw [unaliased, wordWidth_named, ih]

lemma unaliased_eq (t : ValueType) :
    t.unaliased = t.lengths.foldr (fun length element => array element length) (int t.innermost) := by
  induction t with
  | int width => rfl
  | array element length ih => rw [unaliased, lengths, innermost, List.foldr_cons, ih]
  | named name inner ih => rw [unaliased, lengths, innermost, ih]

lemma bitwidth_eq_prod (t : ValueType) :
    t.bitwidth = (t.lengths.map UInt64.toNat).prod * t.innermost.toNat := by
  induction t with
  | int width => rw [bitwidth, lengths, innermost, List.map_nil, List.prod_nil, Nat.one_mul]
  | array element length ih =>
    rw [bitwidth, lengths, innermost, List.map_cons, List.prod_cons, ih, Nat.mul_comm, Nat.mul_assoc]
  | named name inner ih => rw [bitwidth, lengths, innermost, ih]

end ValueType

namespace LocationVector

open ValueType

def ofCoordinatesWith (times : UInt64 → UInt64 → Except WidthFault UInt64) (type : ValueType)
    (coordinates : List (Option (UInt64 × UInt64 × UInt64))) :
    Except WidthFault (Except WidthMismatch LocationVector) :=
  (type.wordWidth times).map fun expected =>
    if coordinates.length = expected.toNat then .ok ⟨type, coordinates.map (·.map flipFlopAt)⟩
    else .error ⟨type, expected.toNat, coordinates.length⟩

variable {times : UInt64 → UInt64 → Except WidthFault UInt64} {type : ValueType}
  {coordinates : List (Option (UInt64 × UInt64 × UInt64))}

lemma ofCoordinatesWith_ok (h : type.wordWidth times = .ok type.width) :
    ofCoordinatesWith times type coordinates = .ok (ofCoordinates type coordinates) := by
  rw [ofCoordinatesWith, h]
  rfl

lemma ofCoordinatesWith_checked : ofCoordinatesWith checked type coordinates =
    if type.Fits then .ok (ofCoordinates type coordinates) else .error .overflow := by
  by_cases h : type.Fits
  · rw [if_pos h, ofCoordinatesWith_ok (by rw [wordWidth_checked, if_pos h])]
  · rw [if_neg h, ofCoordinatesWith, wordWidth_checked, if_neg h]
    rfl

end LocationVector

namespace ValueType

/-- A type has the width that is left of it without its aliases, in words as well. A product that does not fit stands in
the way only below an array without elements, and only if overflow is checked. A vector of locations has one place for
each bit. -/
theorem widths_unaliased {t : ValueType} (hfits : t.bitwidth < 2 ^ 64)
    (coordinates : List (Option (UInt64 × UInt64 × UInt64))) :
    (∀ name inner, t.strip ≠ .named name inner) ∧ t.strip.strip = t.strip ∧
      (∀ times, t.unaliased.wordWidth times = t.wordWidth times) ∧
      (∃ width : UInt64, t.wordWidth wrapping = .ok width ∧ (0 ∉ t.lengths → t.wordWidth checked = .ok width) ∧
        t.wordWidth checked = (if t.Fits then .ok width else .error .overflow) ∧
        t.unaliased.wordWidth wrapping = .ok width ∧ width.toNat = t.bitwidth ∧
        width.toNat = (t.lengths.map UInt64.toNat).prod * t.innermost.toNat ∧
        ((∃ v, LocationVector.ofCoordinates t coordinates = .ok v) ↔ coordinates.length = width.toNat)) ∧
      LocationVector.ofCoordinatesWith wrapping t coordinates = .ok (LocationVector.ofCoordinates t coordinates) ∧
      LocationVector.ofCoordinatesWith checked t coordinates =
        (if t.Fits then .ok (LocationVector.ofCoordinates t coordinates) else .error .overflow) ∧
      t.unaliased = t.lengths.foldr (fun length element => .array element length) (.int t.innermost) ∧
      ∀ v, LocationVector.ofCoordinates t coordinates = .ok v → v.type = t ∧ v.entries.length = coordinates.length ∧
        ∀ i : Nat, (coordinates[i]? = some none → v.entries[i]? = some none) ∧
          ∀ x y num, coordinates[i]? = some (some (x, y, num)) → v.entries[i]? = some (some ⟨.flipFlop, x, y, num⟩) := by
  have hword : t.width.toNat = t.bitwidth := toNat_width hfits
  have hchecked : 0 ∉ t.lengths → t.wordWidth checked = .ok t.width := by
    intro h
    rw [wordWidth_checked, if_pos (fits_of_lengths h hfits)]
  have hplain : t.unaliased.wordWidth wrapping = .ok t.width := by
    rw [wordWidth_unaliased, wordWidth_wrapping]
  refine ⟨strip_ne_named t, strip_strip t, fun times => wordWidth_unaliased times t,
    ⟨_, wordWidth_wrapping t, hchecked, wordWidth_checked t, hplain, hword, hword.trans (bitwidth_eq_prod t), ?_⟩,
    LocationVector.ofCoordinatesWith_ok (wordWidth_wrapping t), LocationVector.ofCoordinatesWith_checked,
    unaliased_eq t, fun v hv => ?_⟩
  · simp only [LocationVector.ofCoordinates_ok, exists_and_left, exists_eq, and_true]
  · obtain ⟨_, rfl⟩ := LocationVector.ofCoordinates_ok.mp hv
    refine ⟨rfl, List.length_map _, fun i => ⟨fun hi => ?_, fun x y num hi => ?_⟩⟩
    · rw [List.getElem?_map, hi]
      rfl
    · rw [List.getElem?_map, hi]
      rfl

def aliasedWord : ValueType :=
  .named "word" (.array (.named "pair" (.array (.named "bit" (.int 1)) 2)) 2)

theorem widths_unaliased_nested : aliasedWord.wordWidth wrapping = .ok 4 ∧ aliasedWord.wordWidth checked = .ok 4 ∧
    ∃ v, LocationVector.ofCoordinatesWith checked aliasedWord [none, some (3, 5, 1), none, none] = .ok (.ok v) ∧
      v.entries[0]? = some none ∧ v.entries[1]? = some (some ⟨.flipFlop, 3, 5, 1⟩) := by
  have hfits : aliasedWord.bitwidth < 2 ^ 64 := by decide
  obtain ⟨_, _, _, ⟨width, hwrapping, hchecked, _, _, hwidth, _, hlength⟩, _, hvector, _, hentries⟩ :=
    widths_unaliased hfits [none, some (3, 5, 1), none, none]
  obtain rfl : width = 4 := UInt64.toNat.inj hwidth
  obtain ⟨v, hv⟩ := hlength.mpr rfl
  rw [if_pos (by decide), hv] at hvector
  obtain ⟨_, _, hbits⟩ := hentries v hv
  exact ⟨hwrapping, hchecked (by decide), v, hvector, (hbits 0).1 rfl, (hbits 1).2 3 5 1 rfl⟩

end ValueType

end HardwareDesign
