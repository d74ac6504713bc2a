import Lox.Heap

/-!
# Lox.Proofs.Heap

Heaps that are made by storing and giving up strings.

In such a heap the slots to be used next are empty and different from each
other, and the counter says how many slots hold a string (`Heap.Sound`).  So a
stored string has a handle of its own, and storing it leaves every other string
where it was (`Heap.Extends`).
-/

namespace Lox

namespace Heap

/-- Heaps that come from the empty one by storing and giving up strings. -/
inductive Built : Heap → Prop where
  | empty : Built empty
  | allocate {heap : Heap} (h : Built heap) (content : Text) : Built (heap.allocate content).2
  | release {heap heap' : Heap} {handle : Handle} (h : Built heap)
      (hrelease : heap.release? handle = some heap') : Built heap'

/-- How many slots hold a string. -/
def occupied (heap : Heap) : Nat := heap.slots.countP (·.content.isSome)

/-- The slots to be used next are empty and different from each other, and the
counter is right. -/
structure Sound (heap : Heap) : Prop where
  vacant : ∀ index ∈ heap.free, ∃ generation, heap.slots[index]? = some ⟨generation, none⟩
  nodup : heap.free.Nodup
  live : heap.live = heap.occupied

/-- Every string of the first heap has the same handle in the second. -/
def Extends (heap heap' : Heap) : Prop :=
  ∀ handle content, heap.get? handle = some content → heap'.get? handle = some content

theorem Extends.refl (heap : Heap) : heap.Extends heap := fun _ _ => id

theorem Extends.trans {heap heap' heap'' : Heap} (h : heap.Extends heap')
    (h' : heap'.Extends heap'') : heap.Extends heap'' := fun _ _ hget => h' _ _ (h _ _ hget)

variable {heap heap' : Heap} {handle : Handle} {content old : Text} {index generation : Nat}
  {free : List Nat}

/-! ## looking up -/

theorem get?_eq_some_iff : heap.get? handle = some content ↔
    ∃ index generation : Nat, handle = ⟨index, generation⟩ ∧
      heap.slots[index]? = some ⟨generation, some content⟩ := by
  obtain ⟨place, age⟩ := handle
  constructor
  · intro h
    cases place with
    | negSucc _ => cases h
    | ofNat index =>
      simp only [get?] at h
      split at h
      · cases h
      · next slot hslot =>
        split at h
        · next hage =>
          obtain ⟨generation, held⟩ := slot
          obtain rfl : held = some content := h
          exact ⟨index, generation, by rw [← hage]; rfl, hslot⟩
        · cases h
  · rintro ⟨index, generation, heq, hslot⟩
    obtain ⟨rfl, rfl⟩ := Handle.mk.inj heq
    simp [get?, hslot]

/-! ## storing -/

theorem allocate_of_cons (h : heap.Sound) (hfree : heap.free = index :: free) (content : Text) :
    ∃ generation, heap.slots[index]? = some ⟨generation, none⟩ ∧
      heap.allocate content = (⟨index, generation⟩,
        ⟨heap.slots.setIfInBounds index ⟨generation, some content⟩, free, heap.live + 1⟩) := by
  obtain ⟨generation, hslot⟩ := h.vacant index (by rw [hfree]; exact .head _)
  have hallocate : heap.allocate content = (⟨index, generation⟩,
      ⟨heap.slots.setIfInBounds index ⟨generation, some content⟩, free, heap.live + 1⟩) := by
    simp only [allocate, hfree, generationAt, hslot, Option.map_some, Option.getD_some]
  exact ⟨generation, hslot, hallocate⟩

theorem allocate_of_nil (hfree : heap.free = []) (content : Text) :
    heap.allocate content =
      (⟨heap.slots.size, 0⟩, ⟨heap.slots.push ⟨0, some content⟩, [], heap.live + 1⟩) := by
  simp only [allocate, hfree]

/-- A string that is stored has the handle given out for it. -/
theorem get?_allocate (h : heap.Sound) (content : Text) :
    (heap.allocate content).2.get? (heap.allocate content).1 = some content := by
  rw [get?_eq_some_iff]
  cases hfree : heap.free with
  | nil =>
    rw [allocate_of_nil hfree]
    exact ⟨heap.slots.size, 0, rfl, by simp⟩
  | cons index free =>
    obtain ⟨generation, hslot, hallocate⟩ := allocate_of_cons h hfree content
    have hlt := (Array.getElem?_eq_some_iff.1 hslot).1
    rw [hallocate]
    exact ⟨index, generation, rfl, Array.getElem?_setIfInBounds_self_of_lt hlt⟩

/-- Storing a string moves no other. -/
theorem extends_allocate (h : heap.Sound) (content : Text) :
    heap.Extends (heap.allocate content).2 := by
  intro handle old hold
  rw [get?_eq_some_iff] at hold ⊢
  obtain ⟨place, age, rfl, hplace⟩ := hold
  have hkept : (heap.allocate content).2.slots[place]? = some ⟨age, some old⟩ := by
    cases hfree : heap.free with
    | nil =>
      rw [allocate_of_nil hfree]
      have hlt := (Array.getElem?_eq_some_iff.1 hplace).1
      rw [Array.getElem?_push, if_neg (Nat.ne_of_lt hlt)]
      exact hplace
    | cons index free =>
      obtain ⟨generation, hslot, hallocate⟩ := allocate_of_cons h hfree content
      have hne : index ≠ place := by
        rintro rfl
        rw [hslot] at hplace
        simp at hplace
      rw [hallocate, Array.getElem?_setIfInBounds_ne hne]
      exact hplace
  exact ⟨place, age, rfl, hkept⟩

/-- One more slot holds a string. -/
theorem occupied_allocate (h : heap.Sound) (content : Text) :
    (heap.allocate content).2.occupied = heap.occupied + 1 := by
  cases hfree : heap.free with
  | nil =>
    rw [allocate_of_nil hfree, occupied, Array.countP_push]
    rfl
  | cons index free =>
    obtain ⟨generation, hslot, hallocate⟩ := allocate_of_cons h hfree content
    obtain ⟨hlt, hvacant⟩ := Array.getElem?_eq_some_iff.1 hslot
    rw [hallocate, occupied, Array.setIfInBounds_def, dif_pos hlt, Array.countP_set, hvacant]
    rfl

theorem Sound.allocate (h : heap.Sound) (content : Text) : (heap.allocate content).2.Sound := by
  have hoccupied := occupied_allocate h content
  cases hfree : heap.free with
  | nil =>
    rw [allocate_of_nil hfree] at hoccupied ⊢
    exact ⟨by simp, by simp, by rw [hoccupied, ← h.live]⟩
  | cons index free =>
    obtain ⟨generation, hslot, hallocate⟩ := allocate_of_cons h hfree content
    have hnodup := h.nodup
    rw [hfree, List.nodup_cons] at hnodup
    rw [hallocate] at hoccupied ⊢
    refine ⟨fun other hother => ?_, hnodup.2, by rw [hoccupied, ← h.live]⟩
    have hne : index ≠ other := fun heq => hnodup.1 (heq ▸ hother)
    have hmem : other ∈ heap.free := by
      rw [hfree]
      exact .tail _ hother
    rw [Array.getElem?_setIfInBounds_ne hne]
    exact h.vacant other hmem

/-! ## giving up -/

/-- A string that is given up leaves its slot to the next generation, to be used
next. -/
theorem release?_eq_some (h : heap.release? handle = some heap') :
    ∃ index generation : Nat, ∃ content, handle = ⟨index, generation⟩ ∧
      heap.slots[index]? = some ⟨generation, some content⟩ ∧
      heap' = ⟨heap.slots.setIfInBounds index ⟨generation + 1, none⟩, index :: heap.free,
        heap.live - 1⟩ := by
  unfold release? at h
  split at h
  · cases h
  · next content hget =>
    obtain ⟨index, generation, rfl, hslot⟩ := get?_eq_some_iff.1 hget
    obtain rfl := Option.some.inj h
    have hgeneration : heap.generationAt index = generation := by simp [generationAt, hslot]
    simp only [Int.toNat_natCast, hgeneration]
    exact ⟨index, generation, content, rfl, hslot, rfl⟩

/-- One slot less holds a string. -/
theorem occupied_release (h : heap.release? handle = some heap') :
    heap'.occupied + 1 = heap.occupied := by
  obtain ⟨index, generation, content, -, hslot, rfl⟩ := release?_eq_some h
  obtain ⟨hlt, hheld⟩ := Array.getElem?_eq_some_iff.1 hslot
  have hpos : 0 < heap.occupied :=
    Array.countP_pos_iff.2 ⟨_, Array.getElem_mem hlt, by rw [hheld]; rfl⟩
  have hless : (heap.slots.setIfInBounds index ⟨generation + 1, none⟩).countP
      (·.content.isSome) = heap.occupied - 1 := by
    rw [Array.setIfInBounds_def, dif_pos hlt, Array.countP_set, hheld]
    rfl
  rw [occupied, hless]
  omega

theorem Sound.release (h : heap.Sound) (hrelease : heap.release? handle = some heap') :
    heap'.Sound := by
  have hoccupied := occupied_release hrelease
  obtain ⟨index, generation, content, rfl, hslot, rfl⟩ := release?_eq_some hrelease
  have hheld : index ∉ heap.free := by
    intro hmem
    obtain ⟨generation', hvacant⟩ := h.vacant index hmem
    rw [hslot] at hvacant
    simp at hvacant
  have hlt := (Array.getElem?_eq_some_iff.1 hslot).1
  have hlive := h.live
  refine ⟨fun other hother => ?_, List.nodup_cons.2 ⟨hheld, h.nodup⟩, by simp only; omega⟩
  by_cases hsame : index = other
  · rw [← hsame]
    exact ⟨_, Array.getElem?_setIfInBounds_self_of_lt hlt⟩
  · rw [Array.getElem?_setIfInBounds_ne hsame]
    exact h.vacant other ((List.mem_cons.1 hother).resolve_left (Ne.symm hsame))

theorem Built.sound (h : heap.Built) : heap.Sound := by
  induction h with
  | empty => exact ⟨by simp [Heap.empty], by simp [Heap.empty], rfl⟩
  | allocate _ content ih => exact ih.allocate content
  | release _ hrelease ih => exact ih.release hrelease

end Heap

end Lox
