import Mathlib.Data.Set.BooleanAlgebra
import Mathlib.Data.Set.Pairwise.Basic
import Mathlib.Order.CompletePartialOrder

/-!
# Allotments

Some owners hold sets of places, no place twice, and all the places they hold are among those in
use. A place in use may also be *spare*: no owner holds it, and whoever is at work may use it.

The moves: new places become spare (`take`), spare ones go out of use (`give`), spare ones go to a
new owner (`adopt`), those of an owner become spare when it goes (`abandon`).
-/

namespace SystemProg.Data

variable {ι α : Type} {live live' : Set ι} {own own' : ι → Set α} {used spare spare' x : Set α}
  {i : ι}

/-- Live owners share nothing, and leave the spare alone. -/
structure Allotment (live : Set ι) (own : ι → Set α) (used spare : Set α) : Prop where
  disjoint : live.PairwiseDisjoint own
  inside : ∀ i ∈ live, own i ⊆ used
  spare_used : spare ⊆ used
  spare_disjoint : ∀ i ∈ live, Disjoint (own i) spare

namespace Allotment

theorem nobody (own : ι → Set α) (used : Set α) : Allotment ∅ own used used :=
  ⟨Set.pairwiseDisjoint_empty, fun _ hi => hi.elim, subset_rfl, fun _ hi => hi.elim⟩

theorem mono (h : Allotment live own used spare) (hl : live' ⊆ live) (hs : spare' ⊆ spare) :
    Allotment live' own used spare' where
  disjoint := h.disjoint.subset hl
  inside i hi := h.inside i (hl hi)
  spare_used := hs.trans h.spare_used
  spare_disjoint i hi := (h.spare_disjoint i (hl hi)).mono_right hs

theorem congr (h : Allotment live own used spare) (ho : ∀ i ∈ live, own' i = own i) :
    Allotment live own' used spare where
  disjoint i hi j hj hij := by
    show Disjoint (own' i) (own' j)
    rw [ho i hi, ho j hj]
    exact h.disjoint hi hj hij
  inside i hi := ho i hi ▸ h.inside i hi
  spare_used := h.spare_used
  spare_disjoint i hi := ho i hi ▸ h.spare_disjoint i hi

theorem take (h : Allotment live own used spare) (hx : Disjoint x used) :
    Allotment live own (used ∪ x) (spare ∪ x) where
  disjoint := h.disjoint
  inside i hi := (h.inside i hi).trans Set.subset_union_left
  spare_used := Set.union_subset_union_left x h.spare_used
  spare_disjoint i hi := Set.disjoint_union_right.mpr
    ⟨h.spare_disjoint i hi, hx.symm.mono_left (h.inside i hi)⟩

theorem give (h : Allotment live own used spare) (hx : x ⊆ spare) :
    Allotment live own (used \ x) (spare \ x) where
  disjoint := h.disjoint
  inside i hi := Set.subset_sdiff.mpr ⟨h.inside i hi, (h.spare_disjoint i hi).mono_right hx⟩
  spare_used := Set.sdiff_subset_sdiff_left h.spare_used
  spare_disjoint i hi := (h.spare_disjoint i hi).mono_right Set.sdiff_subset

theorem adopt (h : Allotment live own used spare) (hi : own i ⊆ spare) :
    Allotment (insert i live) own used (spare \ own i) where
  disjoint := h.disjoint.insert fun j hj _ => ((h.spare_disjoint j hj).mono_right hi).symm
  inside j hj := by
    rcases hj with rfl | hj
    · exact hi.trans h.spare_used
    · exact h.inside j hj
  spare_used := Set.sdiff_subset.trans h.spare_used
  spare_disjoint j hj := by
    rcases hj with rfl | hj
    · exact Set.disjoint_sdiff_right
    · exact (h.spare_disjoint j hj).mono_right Set.sdiff_subset

theorem abandon (h : Allotment live own used spare) (hi : i ∈ live) :
    Allotment (live \ {i}) own used (spare ∪ own i) where
  disjoint := h.disjoint.subset Set.sdiff_subset
  inside j hj := h.inside j hj.1
  spare_used := Set.union_subset h.spare_used (h.inside i hi)
  spare_disjoint j hj :=
    Set.disjoint_union_right.mpr ⟨h.spare_disjoint j hj.1, h.disjoint hj.1 hi hj.2⟩

end Allotment

end SystemProg.Data
