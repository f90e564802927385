import Inlining.Handle

/-!
# Arenas

An arena stores things of one kind in the order in which they were created and never drops
one. The handle of a thing is its place in that order. An arena is known by what its handles
name, `get?`: `get?_alloc` and `get?_modify` say what the two operations do to that view.
-/

namespace Inlining

/-- What only one element of a list contributes is there as often as that element contributes it. -/
theorem count_flatMap_of_only {α β : Type} [BEq β] [LawfulBEq β] {xs : List α} {i : Nat} {x : α}
    (hx : xs[i]? = some x) {f : α → List β} {b : β}
    (only : ∀ j y, xs[j]? = some y → b ∈ f y → j = i) :
    (xs.flatMap f).count b = (f x).count b := by
  induction xs generalizing i with
  | nil => simp at hx
  | cons y ys ih =>
    rw [List.flatMap_cons, List.count_append]
    cases i with
    | zero =>
      have rest : (ys.flatMap f).count b = 0 := by
        refine List.count_eq_zero.2 fun hb => ?_
        obtain ⟨z, hz, hb⟩ := List.mem_flatMap.1 hb
        obtain ⟨j, hj⟩ := List.mem_iff_getElem?.1 hz
        exact absurd (only (j + 1) z (by simpa using hj) hb) (Nat.succ_ne_zero j)
      obtain rfl : y = x := by simpa using hx
      rw [rest, Nat.add_zero]
    | succ i =>
      have first : (f y).count b = 0 := List.count_eq_zero.2 fun hb =>
        absurd (only 0 y rfl hb) (Nat.succ_ne_zero i).symm
      rw [first, Nat.zero_add]
      exact ih (by simpa using hx) fun j z hj hb => Nat.succ.inj (only (j + 1) z (by simpa using hj) hb)

/-- Append-only storage for things named by handles of one kind. -/
structure Arena (kind : HandleKind) (α : Type) where
  items : Array α := #[]

namespace Arena

variable {kind : HandleKind} {α : Type}

instance : Inhabited (Arena kind α) := ⟨{}⟩

def size (a : Arena kind α) : Nat := a.items.size

/-- The handle that the next thing gets. -/
def next (a : Arena kind α) : Handle kind := ⟨a.size⟩

/-- Stores a thing under the next handle. -/
def alloc (a : Arena kind α) (x : α) : Arena kind α := ⟨a.items.push x⟩

/-- What a handle names. -/
def get? (a : Arena kind α) (h : Handle kind) : Option α := a.items[h.index]?

/-- Changes what a handle names. -/
def modify (a : Arena kind α) (h : Handle kind) (f : α → α) : Arena kind α :=
  ⟨a.items.modify h.index f⟩

/-- All things in the order of creation. -/
def toList (a : Arena kind α) : List α := a.items.toList

/-- All things with their handles in the order of creation. -/
def entries (a : Arena kind α) : List (Handle kind × α) :=
  a.toList.zipIdx.map fun (x, i) => (⟨i⟩, x)

@[simp] theorem size_alloc (a : Arena kind α) (x : α) : (a.alloc x).size = a.size + 1 := by
  simp [size, alloc]

@[simp] theorem size_modify (a : Arena kind α) (h : Handle kind) (f : α → α) :
    (a.modify h f).size = a.size := by
  simp [size, modify]

theorem get?_eq_none_iff {a : Arena kind α} {h : Handle kind} :
    a.get? h = none ↔ a.size ≤ h.index := by
  simp [get?, size]

theorem get?_next (a : Arena kind α) : a.get? a.next = none :=
  get?_eq_none_iff.2 (Nat.le_refl _)

/-- Arenas that name the same things are the same. -/
theorem ext_get? {a b : Arena kind α} (h : ∀ k, a.get? k = b.get? k) : a = b := by
  cases a
  cases b
  congr
  exact Array.ext_getElem? fun i => h ⟨i⟩

theorem get?_alloc (a : Arena kind α) (x : α) (h : Handle kind) :
    (a.alloc x).get? h = if h = a.next then some x else a.get? h := by
  obtain ⟨i⟩ := h
  simp [get?, alloc, next, size, Array.getElem?_push]

theorem get?_modify (a : Arena kind α) (h k : Handle kind) (f : α → α) :
    (a.modify h f).get? k = if h = k then (a.get? k).map f else a.get? k := by
  obtain ⟨i⟩ := h
  obtain ⟨j⟩ := k
  simp [get?, modify, Array.getElem?_modify]

/-- What is in a changed arena was there before, as it is or as it was before the change. -/
theorem of_get?_modify {a : Arena kind α} {h k : Handle kind} {f : α → α} {y : α}
    (hy : (a.modify h f).get? k = some y) : ∃ x, a.get? k = some x ∧ (y = x ∨ h = k ∧ y = f x) := by
  rw [get?_modify] at hy
  split at hy
  next here =>
    obtain ⟨x, hx, same⟩ := Option.map_eq_some_iff.1 hy
    exact ⟨x, hx, .inr ⟨here, same.symm⟩⟩
  next => exact ⟨y, hy, .inl rfl⟩

theorem mem_entries_iff {a : Arena kind α} {h : Handle kind} {x : α} :
    (h, x) ∈ a.entries ↔ a.get? h = some x := by
  obtain ⟨i⟩ := h
  simp only [entries, get?, toList, List.mem_map, Prod.exists, List.mem_zipIdx_iff_getElem?,
    Prod.mk.injEq, Handle.mk.injEq, Array.getElem?_toList]
  exact ⟨fun ⟨_, _, h, hi, hx⟩ => hi ▸ hx ▸ h, fun h => ⟨x, i, h, rfl, rfl⟩⟩

theorem mem_toList_iff {a : Arena kind α} {x : α} : x ∈ a.toList ↔ ∃ h, a.get? h = some x := by
  simp only [toList, Array.mem_toList_iff, Array.mem_iff_getElem?, get?]
  exact ⟨fun ⟨i, h⟩ => ⟨⟨i⟩, h⟩, fun ⟨h, e⟩ => ⟨h.index, e⟩⟩

/-- What only one thing of an arena lists is listed by all together as often as by that thing. -/
theorem count_flatMap {β : Type} [BEq β] [LawfulBEq β] {a : Arena kind α} {h : Handle kind} {x : α}
    (hx : a.get? h = some x) {f : α → List β} {b : β}
    (only : ∀ k y, a.get? k = some y → b ∈ f y → k = h) :
    (a.toList.flatMap f).count b = (f x).count b := by
  have hx : a.toList[h.index]? = some x := by simpa [get?, toList] using hx
  refine count_flatMap_of_only hx fun j y hj hb => ?_
  have hj : a.get? ⟨j⟩ = some y := by simpa [get?, toList] using hj
  rw [← only ⟨j⟩ y hj hb]

end Arena

end Inlining
