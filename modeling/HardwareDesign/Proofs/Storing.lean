import Mathlib.Logic.Function.Basic
import Mathlib.Tactic.Lemma
import HardwareDesign.Encoding

namespace HardwareDesign

namespace Json

variable {α : Type} {encode : α → Json} {decode : Json → Option α}

def Restores (encode : α → Json) (decode : Json → Option α) : Prop := ∀ a, decode (encode a) = some a

/-- Nothing is lost when values are stored. What is read from elsewhere may be stored in another form than it had, but
in one that is read alike, and is not changed any more. -/
structure Faithful (encode : α → Json) (decode : Json → Option α) : Prop where
  restores : Restores encode decode
  injective : Function.Injective encode
  read_again : ∀ {j a}, decode j = some a → decode (encode a) = some a
  settled : ∀ {j k}, (decode j).map encode = some k → (decode k).map encode = some k

namespace Restores

lemma faithful (h : Restores encode decode) : Faithful encode decode where
  restores := h
  injective := by
    intro a b hab
    have hb : decode (encode a) = some b := hab ▸ h b
    exact Option.some.inj ((h a).symm.trans hb)
  read_again := fun {_ a} _ => h a
  settled := by
    intro j k hk
    obtain ⟨a, _, rfl⟩ := Option.map_eq_some_iff.mp hk
    rw [h a]
    rfl

lemma nullable (h : Restores encode decode) (hn : ∀ a, encode a ≠ null) :
    Restores (option encode) fun j => nullable? decode (some j) := by
  intro o
  cases o with
  | none => rfl
  | some a =>
    have hread := h a
    have hnull := hn a
    rw [option]
    generalize encode a = j at hread hnull ⊢
    cases j with
    | null => exact (hnull rfl).elim
    | _ => simp [nullable?, hread]

lemma list (h : Restores encode decode) : Restores (fun as => arr (as.map encode)) (list? decode) := by
  intro as
  rw [list?]
  induction as with
  | nil => rfl
  | cons a as ih => simp [h a, ih]

end Restores

lemma restores_str : Restores str str? := fun _ => rfl

lemma restores_text : Restores (option str) fun j => nullable? str? (some j) := restores_str.nullable (by simp)

lemma restores_word (w : UInt64) : word? (nat w.toNat) = some w := by
  simp [word?, natBelow?, UInt64.toNat_lt_size]

end Json

open Json

lemma Primitive.restores : Restores encode decode := by
  intro p
  cases p <;> rfl

lemma Severity.restores : Restores encode decode := by
  intro s
  cases s <;> rfl

lemma ValueType.restores : Restores encode decode := by
  intro t
  induction t with
  | int width => simp [encode, decode, restores_word width]
  | array element length ih => simp [encode, decode, List.lookup_cons, required?, restores_word length, ih]
  | named name inner ih => simp [encode, decode, List.lookup_cons, required?, str?, ih]

lemma Location.restores : Restores encode decode := by
  intro l
  have hprimitive := Primitive.restores l.primitive
  simp [encode, decode, fields, member, List.lookup_cons, required?, hprimitive, restores_word]

lemma LocationVector.restores : Restores encode decode := by
  intro v
  have htype := ValueType.restores v.type
  have hentries := (Location.restores.nullable fun l => by simp [Location.encode]).list v.entries
  simp [encode, decode, fields, member, List.lookup_cons, required?, htype, hentries]

lemma SiteRef.restores : Restores encode decode := by
  intro r
  simp [encode, decode, fields, member, List.lookup_cons, required?, str?]

lemma Payload.restores : Restores encode decode := by
  intro p
  cases p with
  | register name type =>
    have htype := ValueType.restores type
    simp [encode, decode, decodeForm, List.lookup_cons, required?, str?, htype]
  | operation name mnemonic =>
    have hname := restores_text name
    simp [encode, decode, decodeForm, List.lookup_cons, required?, str?, hname]
  | dynamicInstance site =>
    have hsite := SiteRef.restores site
    simp [encode, decode, decodeForm, required?, hsite]
  | verbatim name value subPath =>
    have hsub := restores_text subPath
    simp [encode, decode, decodeForm, List.lookup_cons, required?, str?, hsub]
  | location loc subPath =>
    have hloc := Location.restores loc
    have hsub := restores_text subPath
    simp [encode, decode, decodeForm, List.lookup_cons, required?, hloc, hsub]
  | registerLocations locations =>
    have hlocations := LocationVector.restores locations
    simp [encode, decode, decodeForm, required?, hlocations]
  | module | external | instantiation | hierarchy => rfl

lemma Defect.restores : Restores encode decode := by
  intro d
  cases d with
  | danglingDynamicInstance site =>
    have hsite := SiteRef.restores site
    simp [encode, decode, decodeForm, required?, hsite]
  | _ => rfl

lemma GraphIssue.restores : Restores encode decode := by
  intro i
  have hcause := Defect.restores i.cause
  have hseverity := Severity.restores i.severity
  simp [encode, decode, fields, member, List.lookup_cons, required?, hcause, hseverity]

/-- All design values can be stored, payloads and types, locations and references, and what the check of a graph
reports. -/
theorem stored_values_restored :
    Faithful Payload.encode Payload.decode ∧ Faithful ValueType.encode ValueType.decode ∧
      Faithful Location.encode Location.decode ∧ Faithful LocationVector.encode LocationVector.decode ∧
      Faithful SiteRef.encode SiteRef.decode ∧ Faithful Defect.encode Defect.decode ∧
      Faithful GraphIssue.encode GraphIssue.decode :=
  ⟨Payload.restores.faithful, ValueType.restores.faithful, Location.restores.faithful,
    LocationVector.restores.faithful, SiteRef.restores.faithful, Defect.restores.faithful,
    GraphIssue.restores.faithful⟩

end HardwareDesign
