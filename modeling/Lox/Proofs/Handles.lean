import Lox.Proofs.Heap
import Lox.Value.Operators

/-!
# Lox.Proofs.Handles

Handles against the log of what a heap was asked.

A heap is asked to store, look up and give up strings; its log keeps every
call with the answer.  The log alone says which handles resolve: a handle that
was given out names its string until it is given up, and is never given out
again (`Heap.Accounts.callAll`).  Handles that are made up resolve as little as
those that were given up.
-/

namespace Lox

namespace Heap

/-! ## calls and their log -/

/-- What a heap is asked. -/
inductive Call where
  | allocate (content : Text)
  | get (handle : Handle)
  | release (handle : Handle)
  deriving DecidableEq

/-- What a heap answers. -/
inductive Answer where
  | stored (handle : Handle)
  | found (content : Text)
  | released
  | refused (defect : Defect)
  deriving DecidableEq

/-- The answer to a call, and the heap after it.  A call that is refused leaves
the heap as it was. -/
def call (heap : Heap) : Call → Answer × Heap
  | .allocate content => (.stored (heap.allocate content).1, (heap.allocate content).2)
  | .get handle =>
    match heap.read handle with
    | .ok content => (.found content, heap)
    | .error defect => (.refused defect, heap)
  | .release handle =>
    match heap.release handle with
    | .ok heap' => (.released, heap')
    | .error defect => (.refused defect, heap)

/-- Calls and their answers, the earliest first. -/
abbrev Log := List (Call × Answer)

/-- The log of consecutive calls, and the heap after them. -/
def callAll (heap : Heap) : List Call → Log × Heap
  | [] => ([], heap)
  | next :: rest =>
    let (answer, heap) := heap.call next
    let (log, heap) := heap.callAll rest
    ((next, answer) :: log, heap)

namespace Log

/-- The handle that an entry gives out. -/
def handle? : Call × Answer → Option Handle
  | (.allocate _, .stored handle) => some handle
  | _ => none

/-- The handles that were given out, in order. -/
def stored (log : Log) : List Handle := log.filterMap handle?

/-- Is this a string given up? -/
def isRelease : Call × Answer → Bool
  | (.release _, .released) => true
  | _ => false

/-- How many strings were given up. -/
def releases (log : Log) : Nat := log.countP isRelease

/-- The handle was given out for this string, and was not given up since. -/
def Holds (log : Log) (handle : Handle) (content : Text) : Prop :=
  ∃ before after, log = before ++ (.allocate content, .stored handle) :: after ∧
    (.release handle, .released) ∉ after

theorem holds_append_singleton {log : Log} {entry : Call × Answer} {handle : Handle}
    {content : Text} : Holds (log ++ [entry]) handle content ↔
      entry = (.allocate content, .stored handle) ∨
        Holds log handle content ∧ entry ≠ (.release handle, .released) := by
  constructor
  · rintro ⟨before, after, heq, hkept⟩
    rcases List.eq_nil_or_concat after with rfl | ⟨later, last, rfl⟩
    · exact .inl (List.append_inj_right' heq rfl |> List.singleton_inj.1)
    · rw [List.concat_eq_append, ← List.cons_append, ← List.append_assoc] at heq
      obtain ⟨rfl, hlast⟩ := List.append_inj' heq rfl
      obtain rfl := List.singleton_inj.1 hlast
      simp only [List.concat_eq_append, List.mem_append, List.mem_singleton, not_or] at hkept
      exact .inr ⟨⟨before, later, rfl, hkept.1⟩, Ne.symm hkept.2⟩
  · rintro (rfl | ⟨⟨before, after, rfl, hkept⟩, hentry⟩)
    · exact ⟨log, [], rfl, List.not_mem_nil⟩
    · refine ⟨before, after ++ [entry], by simp, ?_⟩
      simp [hkept, Ne.symm hentry]

end Log

variable {heap heap' : Heap} {handle other : Handle} {content old : Text}

/-! ## one slot changes -/

/-- A string goes into a vacant slot or a new one, and no other slot changes. -/
theorem slots_allocate (h : heap.Sound) (content : Text) :
    ∃ index generation : Nat, (heap.allocate content).1 = ⟨index, generation⟩ ∧
      (∀ slot, heap.slots[index]? = some slot → slot = ⟨generation, none⟩) ∧
      ∀ place : Nat, (heap.allocate content).2.slots[place]? =
        if place = index then some ⟨generation, some content⟩ else heap.slots[place]? := by
  cases hfree : heap.free with
  | nil =>
    rw [allocate_of_nil hfree]
    refine ⟨heap.slots.size, 0, rfl, by simp, fun place => ?_⟩
    rw [Array.getElem?_push]
  | cons index free =>
    obtain ⟨generation, hslot, hallocate⟩ := allocate_of_cons h hfree content
    have hlt := (Array.getElem?_eq_some_iff.1 hslot).1
    rw [hallocate]
    refine ⟨index, generation, rfl, fun slot hfound => ?_, fun place => ?_⟩
    · exact Option.some.inj (hfound.symm.trans hslot)
    · by_cases hplace : place = index
      · rw [if_pos hplace, hplace, Array.getElem?_setIfInBounds_self_of_lt hlt]
      · rw [if_neg hplace, Array.getElem?_setIfInBounds_ne (Ne.symm hplace)]

/-- A string that is given up leaves its slot to the next generation, and no
other slot changes. -/
theorem slots_release (h : heap.release? handle = some heap') :
    ∃ index generation : Nat, ∃ content, handle = ⟨index, generation⟩ ∧
      heap.slots[index]? = some ⟨generation, some content⟩ ∧
      ∀ place : Nat, heap'.slots[place]? =
        if place = index then some ⟨generation + 1, none⟩ else heap.slots[place]? := by
  obtain ⟨index, generation, content, rfl, hslot, rfl⟩ := release?_eq_some h
  have hlt := (Array.getElem?_eq_some_iff.1 hslot).1
  refine ⟨index, generation, content, rfl, hslot, fun place => ?_⟩
  by_cases hplace : place = index
  · rw [if_pos hplace, hplace, Array.getElem?_setIfInBounds_self_of_lt hlt]
  · rw [if_neg hplace, Array.getElem?_setIfInBounds_ne (Ne.symm hplace)]

/-! ## looking up -/

theorem get?_allocate_iff (h : heap.Sound) :
    (heap.allocate content).2.get? handle = some old ↔
      handle = (heap.allocate content).1 ∧ old = content ∨ heap.get? handle = some old := by
  obtain ⟨index, generation, hhandle, hvacant, hslots⟩ := slots_allocate h content
  rw [hhandle, get?_eq_some_iff, get?_eq_some_iff]
  constructor
  · rintro ⟨place, age, rfl, hplace⟩
    rw [hslots] at hplace
    split at hplace
    · next heq => grind
    · exact .inr ⟨place, age, rfl, hplace⟩
  · rintro (⟨rfl, rfl⟩ | ⟨place, age, rfl, hplace⟩)
    · exact ⟨index, generation, rfl, by rw [hslots, if_pos rfl]⟩
    · have hne : place ≠ index := by
        rintro rfl
        cases hvacant _ hplace
      exact ⟨place, age, rfl, by rw [hslots, if_neg hne, hplace]⟩

theorem get?_release_iff (h : heap.release? handle = some heap') :
    heap'.get? other = some old ↔ other ≠ handle ∧ heap.get? other = some old := by
  obtain ⟨index, generation, content, rfl, hslot, hslots⟩ := slots_release h
  rw [get?_eq_some_iff, get?_eq_some_iff]
  constructor
  · rintro ⟨place, age, rfl, hplace⟩
    rw [hslots] at hplace
    split at hplace
    · cases hplace
    · next hne =>
      refine ⟨fun heq => hne ?_, place, age, rfl, hplace⟩
      exact Int.ofNat.inj (Handle.mk.inj heq).1
  · rintro ⟨hne, place, age, rfl, hplace⟩
    have hindex : place ≠ index := by
      rintro rfl
      rw [hslot] at hplace
      cases hplace
      exact hne rfl
    exact ⟨place, age, rfl, by rw [hslots, if_neg hindex, hplace]⟩

/-! ## handles that were given out -/

/-- The handles that a heap may have given out: those of earlier generations of
a slot, and that of the present one if the slot is taken. -/
def Issued (heap : Heap) (handle : Handle) : Prop :=
  ∃ index generation : Nat, ∃ slot, handle = ⟨index, generation⟩ ∧
    heap.slots[index]? = some slot ∧
    (generation < slot.generation ∨ generation = slot.generation ∧ slot.content ≠ none)

/-- A handle that is given out is new. -/
theorem not_issued_allocate (h : heap.Sound) (content : Text) :
    ¬ heap.Issued (heap.allocate content).1 := by
  obtain ⟨index, generation, hhandle, hvacant, -⟩ := slots_allocate h content
  rw [hhandle]
  rintro ⟨place, age, slot, heq, hslot, hage⟩
  simp only [Handle.mk.injEq, Int.natCast_inj] at heq
  obtain ⟨rfl, rfl⟩ := heq
  obtain rfl := hvacant slot hslot
  simp at hage

theorem issued_allocate (h : heap.Sound) (content : Text) :
    (heap.allocate content).2.Issued (heap.allocate content).1 := by
  obtain ⟨index, generation, hhandle, -, hslots⟩ := slots_allocate h content
  rw [hhandle]
  exact ⟨index, generation, _, rfl, by rw [hslots, if_pos rfl], by simp⟩

theorem Issued.allocate (hissued : heap.Issued handle) (h : heap.Sound) (content : Text) :
    (heap.allocate content).2.Issued handle := by
  obtain ⟨index, generation, -, hvacant, hslots⟩ := slots_allocate h content
  obtain ⟨place, age, slot, rfl, hslot, hage⟩ := hissued
  by_cases hplace : place = index
  · obtain rfl := hvacant slot (hplace ▸ hslot)
    have hearlier : age < generation := by simpa using hage
    exact ⟨place, age, _, rfl, by rw [hslots, if_pos hplace], .inl hearlier⟩
  · exact ⟨place, age, slot, rfl, by rw [hslots, if_neg hplace, hslot], hage⟩

/-- A handle that is given up is not forgotten: its slot is a generation on. -/
theorem Issued.release (hissued : heap.Issued other) (h : heap.release? handle = some heap') :
    heap'.Issued other := by
  obtain ⟨index, generation, content, -, hheld, hslots⟩ := slots_release h
  obtain ⟨place, age, slot, rfl, hslot, hage⟩ := hissued
  by_cases hplace : place = index
  · obtain rfl : slot = ⟨generation, some content⟩ :=
      Option.some.inj ((hplace ▸ hslot).symm.trans hheld)
    have hearlier : age < generation + 1 := by
      simp only [ne_eq, reduceCtorEq, not_false_eq_true, and_true] at hage
      omega
    exact ⟨place, age, _, rfl, by rw [hslots, if_pos hplace], .inl hearlier⟩
  · exact ⟨place, age, slot, rfl, by rw [hslots, if_neg hplace, hslot], hage⟩

/-! ## how many strings are stored -/

theorem size_allocate (heap : Heap) (content : Text) :
    (heap.allocate content).2.size = heap.size + 1 := by
  unfold allocate
  split <;> rfl

theorem size_release (h : heap.Sound) (hrelease : heap.release? handle = some heap') :
    heap'.size + 1 = heap.size := by
  rw [size, size, (h.release hrelease).live, h.live]
  exact occupied_release hrelease

/-- The handles that resolve, in the order of their slots. -/
def handles (heap : Heap) : List Handle :=
  heap.slots.toList.zipIdx.filterMap fun (slot, index) =>
    slot.content.map fun _ => ⟨index, slot.generation⟩

theorem mem_handles : handle ∈ heap.handles ↔ ∃ content, heap.get? handle = some content := by
  simp only [handles, List.mem_filterMap, Prod.exists, List.mem_zipIdx_iff_getElem?,
    Array.getElem?_toList, Option.map_eq_some_iff, get?_eq_some_iff]
  constructor
  · rintro ⟨⟨generation, held⟩, index, hslot, content, rfl, rfl⟩
    exact ⟨content, index, generation, rfl, hslot⟩
  · rintro ⟨content, index, generation, rfl, hslot⟩
    exact ⟨_, index, hslot, content, rfl, rfl⟩

theorem nodup_handles (heap : Heap) : heap.handles.Nodup := by
  have hindices : heap.slots.toList.zipIdx.Pairwise fun a b => a.2 ≠ b.2 := by
    rw [← List.pairwise_map, List.zipIdx_map_snd]
    exact List.nodup_range'
  refine List.Pairwise.filterMap _ (fun a b hne c hc d hd heq => hne ?_) hindices
  obtain ⟨_, -, rfl⟩ := Option.map_eq_some_iff.1 hc
  obtain ⟨_, -, rfl⟩ := Option.map_eq_some_iff.1 hd
  exact Int.ofNat.inj (Handle.mk.inj heq).1

theorem length_handles (h : heap.Sound) : heap.handles.length = heap.size := by
  have hslots : heap.slots.toList.zipIdx.map Prod.fst = heap.slots.toList :=
    List.zipIdx_map_fst 0 _
  have hcount : heap.size = heap.slots.toList.zipIdx.countP (·.1.content.isSome) := by
    rw [size, h.live, occupied, ← Array.countP_toList, ← hslots, List.countP_map, hslots]
    rfl
  rw [handles, List.length_filterMap_eq_countP, hcount]
  simp

/-! ## what is answered -/

theorem call_get_eq_found_iff :
    heap.call (.get handle) = (.found content, heap) ↔ heap.get? handle = some content := by
  cases hget : heap.get? handle <;> simp [call, read, hget]

theorem call_get_of_none (h : heap.get? handle = none) :
    heap.call (.get handle) = (.refused (.danglingHandle handle), heap) := by
  simp [call, read, h]

theorem call_release_of_none (h : heap.get? handle = none) :
    heap.call (.release handle) = (.refused (.danglingHandle handle), heap) := by
  simp [call, release, release?, h]

theorem exists_release?_of_some (h : heap.get? handle = some content) :
    ∃ heap', heap.release? handle = some heap' := by
  simp [release?, h]

theorem call_release_of_release? (h : heap.release? handle = some heap') :
    heap.call (.release handle) = (.released, heap') := by
  simp [call, release, h]

/-! ## the log accounts for the heap -/

/-- What a log says about the heap that answered its calls. -/
structure Accounts (log : Log) (heap : Heap) : Prop where
  sound : heap.Sound
  holds : ∀ handle content, heap.get? handle = some content ↔ log.Holds handle content
  issued : ∀ handle ∈ log.stored, heap.Issued handle
  nodup : log.stored.Nodup
  size : heap.size + log.releases = log.stored.length

namespace Accounts

variable {log : Log} {entry : Call × Answer}

theorem empty : Accounts [] empty := by
  refine ⟨Built.empty.sound, fun handle content => ?_, by simp [Log.stored],
    by simp [Log.stored], rfl⟩
  have hnone : Heap.empty.get? handle ≠ some content := by
    simp [get?_eq_some_iff, Heap.empty]
  simp [hnone, Log.Holds]

/-- Nothing is given out or given up. -/
theorem idle (h : Accounts log heap) (hstored : Log.handle? entry = none)
    (hrelease : Log.isRelease entry = false) : Accounts (log ++ [entry]) heap := by
  have hstoredAll : Log.stored (log ++ [entry]) = log.stored := by simp [Log.stored, hstored]
  have hreleases : Log.releases (log ++ [entry]) = log.releases := by
    simp [Log.releases, hrelease]
  refine ⟨h.sound, fun handle content => ?_, ?_, ?_, ?_⟩
  · have hout : entry ≠ (.allocate content, .stored handle) := by
      rintro rfl
      cases hstored
    have hup : entry ≠ (.release handle, .released) := by
      rintro rfl
      cases hrelease
    rw [h.holds, Log.holds_append_singleton]
    simp [hout, hup]
  · rw [hstoredAll]
    exact h.issued
  · rw [hstoredAll]
    exact h.nodup
  · rw [hstoredAll, hreleases]
    exact h.size

theorem allocate (h : Accounts log heap) (content : Text) :
    Accounts (log ++ [(.allocate content, .stored (heap.allocate content).1)])
      (heap.allocate content).2 := by
  have hstored : Log.stored (log ++ [(.allocate content, .stored (heap.allocate content).1)]) =
      log.stored ++ [(heap.allocate content).1] := by simp [Log.stored, Log.handle?]
  have hreleases : Log.releases
      (log ++ [(.allocate content, .stored (heap.allocate content).1)]) = log.releases := by
    simp [Log.releases, Log.isRelease]
  refine ⟨h.sound.allocate content, fun handle old => ?_, ?_, ?_, ?_⟩
  · rw [get?_allocate_iff h.sound, Log.holds_append_singleton, h.holds]
    simp [and_comm, eq_comm]
  · intro handle hhandle
    rw [hstored, List.mem_append, List.mem_singleton] at hhandle
    obtain hearlier | rfl := hhandle
    · exact (h.issued handle hearlier).allocate h.sound content
    · exact issued_allocate h.sound content
  · have hnew : (heap.allocate content).1 ∉ log.stored := fun hmem =>
      not_issued_allocate h.sound content (h.issued _ hmem)
    rw [hstored, List.nodup_append]
    refine ⟨h.nodup, by simp, ?_⟩
    rintro handle hhandle _ hlast rfl
    exact hnew (List.mem_singleton.1 hlast ▸ hhandle)
  · have hsize := h.size
    rw [size_allocate, hstored, hreleases, List.length_append, List.length_singleton]
    omega

theorem release (h : Accounts log heap) (hrelease : heap.release? handle = some heap') :
    Accounts (log ++ [(.release handle, .released)]) heap' := by
  have hstored : Log.stored (log ++ [(.release handle, .released)]) = log.stored := by
    simp [Log.stored, Log.handle?]
  have hreleases : Log.releases (log ++ [(.release handle, .released)]) = log.releases + 1 := by
    simp [Log.releases, Log.isRelease]
  refine ⟨h.sound.release hrelease, fun other old => ?_, ?_, ?_, ?_⟩
  · rw [get?_release_iff hrelease, Log.holds_append_singleton, h.holds]
    simp [and_comm, eq_comm]
  · rw [hstored]
    exact fun other hother => (h.issued other hother).release hrelease
  · rw [hstored]
    exact h.nodup
  · have hsize := h.size
    have hless := size_release h.sound hrelease
    rw [hstored, hreleases]
    omega

/-- A call keeps the accounts. -/
theorem call (h : Accounts log heap) (next : Call) :
    Accounts (log ++ [(next, (heap.call next).1)]) (heap.call next).2 := by
  cases next with
  | allocate content => exact h.allocate content
  | get handle =>
    cases hget : heap.get? handle with
    | none =>
      rw [call_get_of_none hget]
      exact h.idle rfl rfl
    | some content =>
      rw [call_get_eq_found_iff.2 hget]
      exact h.idle rfl rfl
  | release handle =>
    cases hget : heap.get? handle with
    | none =>
      rw [call_release_of_none hget]
      exact h.idle rfl rfl
    | some content =>
      obtain ⟨heap', hrelease⟩ := exists_release?_of_some hget
      rw [call_release_of_release? hrelease]
      exact h.release hrelease

/-- So do consecutive calls. -/
theorem callAll (h : Accounts log heap) (calls : List Call) :
    Accounts (log ++ (heap.callAll calls).1) (heap.callAll calls).2 := by
  induction calls generalizing log heap with
  | nil => simpa [Heap.callAll] using h
  | cons next calls ih => simpa [Heap.callAll] using ih (h.call next)

end Accounts

/-- Handles are never confused.  Whatever a new heap was asked, in any order and
with any handles: no handle was given out twice; a handle is found, and can be
given up, exactly if the log holds it, and what is found is the string that it
was given out for; every other handle is refused, and the heap is left as it
was; and the heap stores as many strings as were stored and not given up, which
is how many handles resolve. -/
theorem answers_follow_log (calls : List Call) :
    let log := (Heap.empty.callAll calls).1
    let heap := (Heap.empty.callAll calls).2
    log.stored.Nodup ∧
    (∀ handle content,
      heap.call (.get handle) = (.found content, heap) ↔ log.Holds handle content) ∧
    (∀ handle, (heap.call (.release handle)).1 = .released ↔ ∃ content, log.Holds handle content) ∧
    (∀ handle, (¬ ∃ content, log.Holds handle content) ↔
      heap.call (.get handle) = (.refused (.danglingHandle handle), heap) ∧
        heap.call (.release handle) = (.refused (.danglingHandle handle), heap)) ∧
    heap.size + log.releases = log.stored.length ∧
    heap.handles.Nodup ∧ heap.handles.length = heap.size ∧
    ∀ handle, handle ∈ heap.handles ↔
      ∃ content, heap.call (.get handle) = (.found content, heap) := by
  intro log heap
  have haccounts : Accounts log heap := Accounts.empty.callAll calls
  refine ⟨haccounts.nodup, fun handle content => ?_, fun handle => ?_, fun handle => ?_,
    haccounts.size, heap.nodup_handles, length_handles haccounts.sound, fun handle => ?_⟩
  · rw [call_get_eq_found_iff, haccounts.holds]
  · simp only [← haccounts.holds]
    cases hget : heap.get? handle with
    | none => simp [call_release_of_none hget]
    | some content =>
      obtain ⟨heap', hrelease⟩ := exists_release?_of_some hget
      simp [call_release_of_release? hrelease]
  · simp only [← haccounts.holds]
    cases hget : heap.get? handle with
    | none => simp [call_get_of_none hget, call_release_of_none hget]
    | some content => simp [call_get_eq_found_iff.2 hget]
  · simp only [mem_handles, call_get_eq_found_iff]

/-- A slot that is used again answers to its new handle only: neither the old
one nor one of a generation to come resolves. -/
example : (Heap.empty.callAll [.allocate [unit 'a'], .release ⟨0, 0⟩, .allocate [unit 'b'],
    .get ⟨0, 0⟩, .release ⟨0, 0⟩, .get ⟨0, 2⟩, .get ⟨0, 1⟩]).1.map Prod.snd =
      [.stored ⟨0, 0⟩, .released, .stored ⟨0, 1⟩, .refused (.danglingHandle ⟨0, 0⟩),
        .refused (.danglingHandle ⟨0, 0⟩), .refused (.danglingHandle ⟨0, 2⟩),
        .found [unit 'b']] := by decide

end Heap

end Lox
