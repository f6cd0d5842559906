import Mathlib.Data.List.Forall2
import Mathlib.Data.List.Sort
import Mathlib.Order.Basic
/-!
# OrdMap — finite maps that iterate in key order

Entries with strictly ascending keys; the order is part of the type, so a map has one representation and iterating it is
reading its list.
-/
namespace Syllog

/-- Sorting forgets the order. -/
theorem insertionSort_eq_of_perm {α : Type} [LinearOrder α] {l l' : List α} (h : l.Perm l') :
    l.insertionSort (· ≤ ·) = l'.insertionSort (· ≤ ·) := by
  refine List.Perm.eq_of_pairwise (fun a b _ _ hab hba => le_antisymm hab hba) (List.pairwise_insertionSort _ _)
    (List.pairwise_insertionSort _ _) ?_
  exact (List.perm_insertionSort _ l).trans (h.trans (List.perm_insertionSort _ l').symm)

structure OrdMap (κ α : Type) [LinearOrder κ] where
  entries : List (κ × α)
  sorted : entries.Pairwise (fun a b => a.1 < b.1)

namespace OrdMap

variable {κ α β : Type} [LinearOrder κ]

instance [DecidableEq α] : DecidableEq (OrdMap κ α) := fun a b =>
  decidable_of_iff (a.entries = b.entries) (by cases a; cases b; simp)

def lookup (k : κ) : List (κ × α) → Option α
  | []           => none
  | (k', v) :: l => if k' = k then some v else lookup k l

def insertEntry (k : κ) (v : α) : List (κ × α) → List (κ × α)
  | []            => [(k, v)]
  | (k', v') :: l =>
    if k < k' then (k, v) :: (k', v') :: l
    else if k' = k then (k, v) :: l
    else (k', v') :: insertEntry k v l

theorem mem_insertEntry {k : κ} {v : α} {e : κ × α} : ∀ {l : List (κ × α)}, e ∈ insertEntry k v l → e = (k, v) ∨ e ∈ l
  | [], h => .inl (List.mem_singleton.mp h)
  | (k', v') :: l, h => by
    unfold insertEntry at h
    split_ifs at h with h1 h2
    · exact List.mem_cons.mp h
    · rcases List.mem_cons.mp h with h | h
      · exact .inl h
      · exact .inr (List.mem_cons_of_mem _ h)
    · rcases List.mem_cons.mp h with h | h
      · exact .inr (h ▸ List.mem_cons_self)
      · rcases mem_insertEntry h with h | h
        · exact .inl h
        · exact .inr (List.mem_cons_of_mem _ h)

theorem sorted_insertEntry (k : κ) (v : α) : ∀ {l : List (κ × α)}, l.Pairwise (fun a b => a.1 < b.1) →
    (insertEntry k v l).Pairwise (fun a b => a.1 < b.1)
  | [], _ => List.pairwise_singleton _ _
  | (k', v') :: l, h => by
    obtain ⟨hhead, htail⟩ := List.pairwise_cons.mp h
    unfold insertEntry
    split_ifs with h1 h2
    · refine List.pairwise_cons.mpr ⟨fun e he => ?_, h⟩
      rcases List.mem_cons.mp he with rfl | he
      · exact h1
      · exact h1.trans (hhead e he)
    · subst h2
      exact List.pairwise_cons.mpr ⟨hhead, htail⟩
    · refine List.pairwise_cons.mpr ⟨fun e he => ?_, sorted_insertEntry k v htail⟩
      rcases mem_insertEntry he with rfl | he
      · exact lt_of_le_of_ne (not_lt.mp h1) h2
      · exact hhead e he

def empty : OrdMap κ α := ⟨[], List.Pairwise.nil⟩

def get? (m : OrdMap κ α) (k : κ) : Option α := lookup k m.entries

def contains (m : OrdMap κ α) (k : κ) : Bool := (m.get? k).isSome

def insert (m : OrdMap κ α) (k : κ) (v : α) : OrdMap κ α := ⟨insertEntry k v m.entries, sorted_insertEntry k v m.sorted⟩

def erase (m : OrdMap κ α) (k : κ) : OrdMap κ α := ⟨m.entries.filter (·.1 ≠ k), m.sorted.filter _⟩

theorem sorted_filterMap (f : κ → α → Option β) {l : List (κ × α)} (h : l.Pairwise (fun a b => a.1 < b.1)) :
    (l.filterMap fun e => (f e.1 e.2).map fun v => (e.1, v)).Pairwise (fun a b => a.1 < b.1) := by
  refine List.Pairwise.filterMap _ (fun a a' haa b hb b' hb' => ?_) h
  obtain ⟨_, _, rfl⟩ := Option.map_eq_some_iff.mp hb
  obtain ⟨_, _, rfl⟩ := Option.map_eq_some_iff.mp hb'
  exact haa

/-- The entries `f` has a value for, with that value. -/
def filterMap (f : κ → α → Option β) (m : OrdMap κ α) : OrdMap κ β :=
  ⟨m.entries.filterMap fun e => (f e.1 e.2).map fun v => (e.1, v), sorted_filterMap f m.sorted⟩

def keys (m : OrdMap κ α) : List κ := m.entries.map (·.1)

def values (m : OrdMap κ α) : List α := m.entries.map (·.2)

@[simp] theorem get?_empty (k : κ) : (empty : OrdMap κ α).get? k = none := rfl

theorem lookup_eq_none_of_lt {k : κ} : ∀ {l : List (κ × α)}, (∀ e ∈ l, k < e.1) → lookup k l = none
  | [], _ => rfl
  | (k', v) :: l, h => by
    have hne : k' ≠ k := (h (k', v) List.mem_cons_self).ne'
    rw [lookup, if_neg hne]
    exact lookup_eq_none_of_lt fun e he => h e (List.mem_cons_of_mem _ he)

theorem lookup_eq_none_of_notMem {k : κ} : ∀ {l : List (κ × α)}, k ∉ l.map (·.1) → lookup k l = none
  | [], _ => rfl
  | (k', v) :: l, h => by
    rw [List.map_cons, List.mem_cons, not_or] at h
    rw [lookup, if_neg fun heq => h.1 heq.symm]
    exact lookup_eq_none_of_notMem h.2

theorem lookup_insertEntry (k k' : κ) (v : α) : ∀ (l : List (κ × α)), l.Pairwise (fun a b => a.1 < b.1) →
    lookup k' (insertEntry k v l) = if k = k' then some v else lookup k' l
  | [], _ => rfl
  | (k₀, v₀) :: l, h => by
    obtain ⟨hhead, htail⟩ := List.pairwise_cons.mp h
    by_cases h1 : k < k₀
    · rw [insertEntry, if_pos h1, lookup]
    by_cases h2 : k₀ = k
    · subst h2
      rw [insertEntry, if_neg h1, if_pos rfl, lookup, lookup]
      by_cases h3 : k₀ = k' <;> simp [h3]
    · rw [insertEntry, if_neg h1, if_neg h2, lookup, lookup, lookup_insertEntry k k' v l htail]
      by_cases h3 : k₀ = k'
      · have h4 : k ≠ k' := fun h => h2 (h3.trans h.symm)
        rw [if_pos h3, if_neg h4, if_pos h3]
      · rw [if_neg h3, if_neg h3]

@[simp] theorem get?_insert (m : OrdMap κ α) (k k' : κ) (v : α) :
    (m.insert k v).get? k' = if k = k' then some v else m.get? k' := lookup_insertEntry k k' v m.entries m.sorted

theorem lookup_filter_ne (k k' : κ) : ∀ l : List (κ × α),
    lookup k' (l.filter (·.1 ≠ k)) = if k = k' then none else lookup k' l
  | [] => by simp [lookup]
  | e :: l => by
    by_cases he : e.1 = k
    · rw [List.filter_cons_of_neg (by simp [he]), lookup_filter_ne k k' l, lookup]
      by_cases hk : k = k'
      · simp [hk]
      · rw [if_neg hk, if_neg hk, if_neg (fun h => hk (he.symm.trans h))]
    · rw [List.filter_cons_of_pos (by simp [he]), lookup, lookup, lookup_filter_ne k k' l]
      by_cases hk : e.1 = k'
      · rw [if_pos hk, if_pos hk, if_neg (fun h => he (hk.trans h.symm))]
      · rw [if_neg hk, if_neg hk]

@[simp] theorem get?_erase (m : OrdMap κ α) (k k' : κ) : (m.erase k).get? k' = if k = k' then none else m.get? k' :=
  lookup_filter_ne k k' m.entries

theorem lookup_eq_some_iff {k : κ} {v : α} : ∀ {l : List (κ × α)}, l.Pairwise (fun a b => a.1 < b.1) →
    (lookup k l = some v ↔ (k, v) ∈ l)
  | [], _ => by simp [lookup]
  | (k', v') :: l, h => by
    obtain ⟨hhead, htail⟩ := List.pairwise_cons.mp h
    by_cases hk : k' = k
    · subst hk
      rw [lookup, if_pos rfl]
      constructor
      · intro hv
        cases hv
        exact List.mem_cons_self
      · intro hmem
        rcases List.mem_cons.mp hmem with hmem | hmem
        · cases hmem
          rfl
        · exact absurd (hhead _ hmem) (lt_irrefl k')
    · rw [lookup, if_neg hk, lookup_eq_some_iff htail, List.mem_cons]
      constructor
      · exact .inr
      · rintro (heq | hmem)
        · cases heq
          exact absurd rfl hk
        · exact hmem

theorem get?_eq_some_iff {m : OrdMap κ α} {k : κ} {v : α} : m.get? k = some v ↔ (k, v) ∈ m.entries :=
  lookup_eq_some_iff m.sorted

theorem get?_filterMap (f : κ → α → Option β) (m : OrdMap κ α) (k : κ) :
    (m.filterMap f).get? k = (m.get? k).bind (f k) := by
  apply Option.ext
  intro v
  rw [get?_eq_some_iff, Option.bind_eq_some_iff]
  constructor
  · intro h
    obtain ⟨e, he, hv⟩ := List.mem_filterMap.mp h
    obtain ⟨w, hw, heq⟩ := Option.map_eq_some_iff.mp hv
    cases heq
    exact ⟨e.2, get?_eq_some_iff.mpr he, hw⟩
  · rintro ⟨a, ha, hv⟩
    exact List.mem_filterMap.mpr ⟨(k, a), get?_eq_some_iff.mp ha, by simp [hv]⟩

theorem mem_keys_iff {m : OrdMap κ α} {k : κ} : k ∈ m.keys ↔ ∃ v, m.get? k = some v := by
  constructor
  · intro h
    obtain ⟨e, he, rfl⟩ := List.mem_map.mp h
    exact ⟨e.2, get?_eq_some_iff.mpr he⟩
  · rintro ⟨v, hv⟩
    exact List.mem_map.mpr ⟨(k, v), get?_eq_some_iff.mp hv, rfl⟩

theorem nodup_keys (m : OrdMap κ α) : m.keys.Nodup := by
  refine List.Pairwise.map _ (fun a b hab => ?_) m.sorted
  exact ne_of_lt hab

/-- The entries of a list, a later one in the place of an earlier one with its key. -/
def ofList (l : List (κ × α)) : OrdMap κ α := l.foldl (fun m e => m.insert e.1 e.2) empty

theorem get?_foldl_insert {k : κ} {v : α} : ∀ {l : List (κ × α)} {m : OrdMap κ α}, (l.map (·.1)).Nodup →
    ((k, v) ∈ l ∨ (k ∉ l.map (·.1) ∧ m.get? k = some v)) → (l.foldl (fun m e => m.insert e.1 e.2) m).get? k = some v
  | [], m, _, h => by
    rcases h with h | h
    · cases h
    · exact h.2
  | e :: l, m, hnodup, h => by
    rw [List.map_cons, List.nodup_cons] at hnodup
    rw [List.foldl_cons]
    refine get?_foldl_insert hnodup.2 ?_
    rcases h with h | ⟨hout, hget⟩
    · rcases List.mem_cons.mp h with rfl | h
      · exact .inr ⟨hnodup.1, by simp⟩
      · exact .inl h
    · rw [List.map_cons, List.mem_cons, not_or] at hout
      refine .inr ⟨hout.2, ?_⟩
      rw [get?_insert, if_neg (fun heq => hout.1 heq.symm)]
      exact hget

/-- **Every entry of a list without repeated keys is found.** -/
theorem get?_ofList {k : κ} {v : α} {l : List (κ × α)} (hnodup : (l.map (·.1)).Nodup) (h : (k, v) ∈ l) :
    (ofList l).get? k = some v := get?_foldl_insert hnodup (.inl h)

theorem get?_foldl_insert_ne {k : κ} : ∀ {l : List (κ × α)} {m : OrdMap κ α}, k ∉ l.map (·.1) →
    (l.foldl (fun m e => m.insert e.1 e.2) m).get? k = m.get? k
  | [], _, _ => rfl
  | e :: l, m, h => by
    rw [List.map_cons, List.mem_cons, not_or] at h
    rw [List.foldl_cons, get?_foldl_insert_ne h.2, get?_insert, if_neg fun heq => h.1 heq.symm]

theorem mem_of_get?_foldl_insert {k : κ} {v : α} : ∀ {l : List (κ × α)} {m : OrdMap κ α},
    (l.foldl (fun m e => m.insert e.1 e.2) m).get? k = some v → (k, v) ∈ l ∨ m.get? k = some v
  | [], _, h => .inr h
  | e :: l, m, h => by
    rw [List.foldl_cons] at h
    rcases mem_of_get?_foldl_insert h with h | h
    · exact .inl (List.mem_cons_of_mem _ h)
    · rw [get?_insert] at h
      split_ifs at h with heq
      · cases h
        exact .inl (by rw [← heq]; exact List.mem_cons_self)
      · exact .inr h

/-- What is found is an entry. -/
theorem mem_of_get?_ofList {k : κ} {v : α} {l : List (κ × α)} (h : (ofList l).get? k = some v) : (k, v) ∈ l := by
  rcases mem_of_get?_foldl_insert h with h | h
  · exact h
  · rw [get?_empty] at h
    cases h

theorem exists_get?_foldl_insert {k : κ} : ∀ {l : List (κ × α)} {m : OrdMap κ α},
    k ∈ l.map (·.1) ∨ (∃ v, m.get? k = some v) → ∃ v, (l.foldl (fun m e => m.insert e.1 e.2) m).get? k = some v
  | [], _, h => by
    rcases h with h | h
    · cases h
    · exact h
  | e :: l, m, h => by
    rw [List.foldl_cons]
    refine exists_get?_foldl_insert ?_
    by_cases heq : e.1 = k
    · exact .inr ⟨e.2, by rw [get?_insert, if_pos heq]⟩
    · rcases h with h | ⟨v, hv⟩
      · rcases List.mem_cons.mp h with h | h
        · exact absurd h.symm heq
        · exact .inl h
      · exact .inr ⟨v, by rw [get?_insert, if_neg heq]; exact hv⟩

/-- A key of some entry is found. -/
theorem exists_get?_ofList {k : κ} {l : List (κ × α)} (h : k ∈ l.map (·.1)) : ∃ v, (ofList l).get? k = some v :=
  exists_get?_foldl_insert (.inl h)

/-- A key of no entry is not found. -/
theorem get?_ofList_eq_none {k : κ} {l : List (κ × α)} (h : k ∉ l.map (·.1)) : (ofList l).get? k = none :=
  (get?_foldl_insert_ne h).trans (get?_empty k)

omit [LinearOrder κ] in
/-- What is kept of a list with distinct keys has distinct keys. -/
theorem nodup_map_filterMap {γ δ : Type} (key : γ → κ) {key' : δ → κ} {g : γ → Option δ}
    (hg : ∀ a b, g a = some b → key' b = key a) {l : List γ} (h : (l.map key).Nodup) :
    ((l.filterMap g).map key').Nodup := by
  rw [List.Nodup, List.pairwise_map] at h ⊢
  refine List.Pairwise.filterMap g (fun a a' haa b hb b' hb' => ?_) h
  rw [hg a b hb, hg a' b' hb']
  exact haa

omit [LinearOrder κ] in
/-- With distinct keys, an element is the first with its key. -/
theorem find?_of_nodup {γ : Type} [DecidableEq κ] {key : γ → κ} {l : List γ} (h : (l.map key).Nodup) {a : γ} (ha : a ∈ l) :
    l.find? (fun b => key b = key a) = some a := by
  have hsome : (l.find? fun b => key b = key a).isSome = true := List.find?_isSome.mpr ⟨a, ha, decide_eq_true rfl⟩
  obtain ⟨found, hfound⟩ := Option.isSome_iff_exists.mp hsome
  have hkey : key found = key a := by simpa using List.find?_some hfound
  rw [hfound, List.inj_on_of_nodup_map h (List.mem_of_find?_eq_some hfound) ha hkey]

/-- **A map is what its lookups are.** -/
theorem ext_get? {m m' : OrdMap κ α} (h : ∀ k, m.get? k = m'.get? k) : m = m' := by
  have hmem : ∀ e : κ × α, e ∈ m.entries ↔ e ∈ m'.entries := by
    intro e
    rw [← get?_eq_some_iff (k := e.1) (v := e.2), ← get?_eq_some_iff (k := e.1) (v := e.2), h]
  have hnodup : ∀ n : OrdMap κ α, n.entries.Nodup := fun n =>
    n.sorted.imp (fun {a b} hab heq => absurd (congrArg Prod.fst heq) (ne_of_lt hab))
  have hperm : m.entries.Perm m'.entries := (List.perm_ext_iff_of_nodup (hnodup m) (hnodup m')).mpr hmem
  have hentries : m.entries = m'.entries :=
    hperm.eq_of_pairwise (fun a b _ _ hab hba => absurd hba (lt_asymm hab)) m.sorted m'.sorted
  cases m
  cases m'
  cases hentries
  rfl

theorem insertEntry_map (f : α → β) (k : κ) (v : α) : ∀ l : List (κ × α),
    insertEntry k (f v) (l.map fun e => (e.1, f e.2)) = (insertEntry k v l).map fun e => (e.1, f e.2)
  | [] => rfl
  | (k', v') :: l => by
    simp only [List.map_cons, insertEntry]
    split_ifs
    · rfl
    · rfl
    · rw [insertEntry_map f k v l]
      rfl

theorem foldl_insert_map (f : α → β) : ∀ {l : List (κ × α)} {m : OrdMap κ α} {m' : OrdMap κ β},
    m'.entries = m.entries.map (fun e => (e.1, f e.2)) →
      ((l.map fun e => (e.1, f e.2)).foldl (fun m e => m.insert e.1 e.2) m').entries =
        (l.foldl (fun m e => m.insert e.1 e.2) m).entries.map fun e => (e.1, f e.2)
  | [], _, _, h => h
  | e :: l, m, m', h => by
    rw [List.map_cons, List.foldl_cons, List.foldl_cons]
    refine foldl_insert_map f ?_
    show insertEntry e.1 (f e.2) m'.entries = (insertEntry e.1 e.2 m.entries).map _
    rw [h, insertEntry_map]

/-- Mapping the values of a list of entries maps those of its map. -/
theorem values_ofList_map (f : α → β) (l : List (κ × α)) :
    (ofList (l.map fun e => (e.1, f e.2))).values = (ofList l).values.map f := by
  rw [values, values, ofList, foldl_insert_map f (m := empty) rfl, List.map_map, List.map_map]
  rfl

/-- Where nothing is dropped, the keys stay. -/
theorem keys_filterMap {f : κ → α → Option β} {m : OrdMap κ α} (h : ∀ k v, (k, v) ∈ m.entries → (f k v).isSome = true) :
    (m.filterMap f).keys = m.keys := by
  have hentries : ∀ l : List (κ × α), (∀ k v, (k, v) ∈ l → (f k v).isSome = true) →
      (l.filterMap fun e => (f e.1 e.2).map fun v => (e.1, v)).map (·.1) = l.map (·.1) := by
    intro l hl
    induction l with
    | nil => rfl
    | cons e l ih =>
      obtain ⟨v, hv⟩ := Option.isSome_iff_exists.mp (hl e.1 e.2 List.mem_cons_self)
      simp only [List.filterMap_cons, hv, Option.map_some, List.map_cons]
      rw [ih fun k v hk => hl k v (List.mem_cons_of_mem _ hk)]
  exact hentries m.entries h

/-! ## Two maps -/

theorem forall₂_of_lookup {R : κ → α → β → Prop} : ∀ {l : List (κ × α)} {l' : List (κ × β)},
    l.Pairwise (fun a b => a.1 < b.1) → l'.Pairwise (fun a b => a.1 < b.1) →
      (∀ k, Option.Rel (R k) (lookup k l) (lookup k l')) → List.Forall₂ (fun e e' => e.1 = e'.1 ∧ R e.1 e.2 e'.2) l l'
  | [], [], _, _, _ => .nil
  | [], (k, v) :: l', _, _, h => by
    have hk := h k
    rw [lookup, lookup, if_pos rfl] at hk
    cases hk
  | (k, v) :: l, [], _, _, h => by
    have hk := h k
    rw [lookup, lookup, if_pos rfl] at hk
    cases hk
  | (k, v) :: l, (k', v') :: l', hl, hl', h => by
    obtain ⟨hhead, htail⟩ := List.pairwise_cons.mp hl
    obtain ⟨hhead', htail'⟩ := List.pairwise_cons.mp hl'
    have hfirst := h k
    have hfirst' := h k'
    simp only [lookup, if_true] at hfirst hfirst'
    -- the lesser of the two first keys would stand in one map only
    obtain rfl : k' = k := by
      rcases lt_trichotomy k k' with hlt | heq | hlt
      · rw [if_neg (ne_of_gt hlt), lookup_eq_none_of_lt fun e he => hlt.trans (hhead' e he)] at hfirst
        cases hfirst
      · exact heq.symm
      · rw [if_neg (ne_of_gt hlt), lookup_eq_none_of_lt fun e he => hlt.trans (hhead e he)] at hfirst'
        cases hfirst'
    rw [if_pos rfl] at hfirst
    cases hfirst with | some hv =>
    refine .cons ⟨rfl, hv⟩ (forall₂_of_lookup htail htail' fun x => ?_)
    by_cases hx : k' = x
    · subst hx
      rw [lookup_eq_none_of_lt hhead, lookup_eq_none_of_lt hhead']
      exact .none
    · have hrest := h x
      rw [lookup, lookup, if_neg hx, if_neg hx] at hrest
      exact hrest

/-- Maps with related values under every key have related entries in order. -/
theorem forall₂_values {R : α → β → Prop} {m : OrdMap κ α} {m' : OrdMap κ β} (h : ∀ k, Option.Rel R (m.get? k) (m'.get? k)) :
    List.Forall₂ R m.values m'.values := by
  rw [values, values, List.forall₂_map_left_iff, List.forall₂_map_right_iff]
  exact (forall₂_of_lookup (R := fun _ => R) m.sorted m'.sorted h).imp fun _ _ he => he.2

end OrdMap
end Syllog
