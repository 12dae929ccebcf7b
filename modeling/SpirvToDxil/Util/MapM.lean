import Mathlib.Data.List.Forall2

/-!
# Mapping a fallible function

`List.mapM` in `Option` succeeds when every element does, and then relates the list to
its images element by element.
-/

namespace SpirvToDxil

variable {α β : Type}

theorem mapM_eq_some_iff {f : α → Option β} {list : List α} {images : List β} :
    list.mapM f = some images ↔ List.Forall₂ (fun a b => f a = some b) list images := by
  induction list generalizing images with
  | nil => cases images <;> simp
  | cons a rest inductionHypothesis =>
    cases images with
    | nil => simp [Option.bind_eq_some_iff]
    | cons b images =>
      simp only [List.mapM_cons, Option.pure_def, Option.bind_eq_bind, Option.bind_eq_some_iff,
        Option.some.injEq, List.cons.injEq, List.forall₂_cons, ← inductionHypothesis]
      constructor
      · rintro ⟨_, image, _, images, rfl, rfl⟩
        exact ⟨image, images⟩
      · rintro ⟨image, images⟩
        exact ⟨_, image, _, images, rfl, rfl⟩

theorem mapM_eq_some_map {f : α → Option β} {g : α → β} {list : List α}
    (each : ∀ a ∈ list, f a = some (g a)) : list.mapM f = some (list.map g) := by
  rw [mapM_eq_some_iff, List.forall₂_map_right_iff, List.forall₂_same]
  exact each

theorem exists_of_mapM {f : α → Option β} {list : List α} {images : List β}
    (mapped : list.mapM f = some images) {a : α} (member : a ∈ list) :
    ∃ b ∈ images, f a = some b := by
  rw [mapM_eq_some_iff] at mapped
  induction mapped with
  | nil => simp at member
  | cons image _ inductionHypothesis =>
    rcases List.mem_cons.mp member with rfl | member
    · exact ⟨_, by simp, image⟩
    · obtain ⟨b, inImages, image⟩ := inductionHypothesis member
      exact ⟨b, List.mem_cons_of_mem _ inImages, image⟩

theorem exists_preimage_of_mapM {f : α → Option β} {list : List α} {images : List β}
    (mapped : list.mapM f = some images) {b : β} (member : b ∈ images) :
    ∃ a ∈ list, f a = some b := by
  rw [mapM_eq_some_iff] at mapped
  induction mapped with
  | nil => simp at member
  | cons image _ inductionHypothesis =>
    rcases List.mem_cons.mp member with rfl | member
    · exact ⟨_, by simp, image⟩
    · obtain ⟨a, inList, image⟩ := inductionHypothesis member
      exact ⟨a, List.mem_cons_of_mem _ inList, image⟩

theorem length_of_mapM {f : α → Option β} {list : List α} {images : List β}
    (mapped : list.mapM f = some images) : images.length = list.length :=
  (mapM_eq_some_iff.mp mapped).length_eq.symm

theorem exists_mapM {f : α → Option β} {list : List α} (each : ∀ a ∈ list, ∃ b, f a = some b) :
    ∃ images, list.mapM f = some images := by
  induction list with
  | nil => exact ⟨[], rfl⟩
  | cons a rest inductionHypothesis =>
    obtain ⟨b, image⟩ := each a (by simp)
    obtain ⟨images, mapped⟩ := inductionHypothesis fun a member => each a (by simp [member])
    exact ⟨b :: images, by simp [image, mapped]⟩

end SpirvToDxil
