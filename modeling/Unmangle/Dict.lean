import Unmangle.Text.Basic

set_option autoImplicit false

/-! # Dictionaries in key order

A dictionary holds at most one value per key and lists its entries in ascending key order, so two
dictionaries with the same entries are equal. Texts are ordered by code point, and lists of texts
in the same way by their members.

* `Dict.get?_insert_self`, `Dict.get?_insert_of_ne`: an insertion changes one key only.
* `Dict.get?_eq_some_iff`: the values that are found are those in the list of entries.
* `Dict.get?_ofList`: of two pairs with one key the later one is found.
-/

namespace Unmangle

/-- A dictionary: entries in strictly ascending key order. -/
structure Dict (κ α : Type) [Ord κ] where
  entries : List (κ × α)
  ascending : entries.Pairwise (fun a b => compare a.1 b.1 = .lt)

namespace Dict

/-- What is found in a list of pairs stands there. -/
theorem mem_of_lookup {κ α : Type} [BEq κ] [LawfulBEq κ] {l : List (κ × α)} {k : κ} {a : α}
    (h : l.lookup k = some a) : (k, a) ∈ l := by
  obtain ⟨front, back, rfl, -⟩ := List.lookup_eq_some_iff.1 h
  exact List.mem_append_right front List.mem_cons_self

variable {κ α : Type} [Ord κ]

instance [DecidableEq κ] [DecidableEq α] : DecidableEq (Dict κ α) := fun a b =>
  if h : a.entries = b.entries then
    isTrue (by cases a; cases b; cases h; rfl)
  else
    isFalse fun hab => h (by rw [hab])

def empty : Dict κ α := ⟨[], .nil⟩

instance : Inhabited (Dict κ α) := ⟨empty⟩

def size (d : Dict κ α) : Nat := d.entries.length

def isEmpty (d : Dict κ α) : Bool := d.entries.isEmpty

def keys (d : Dict κ α) : List κ := d.entries.map (·.1)

/-! ## Selection -/

def filter (keep : κ → α → Bool) (d : Dict κ α) : Dict κ α :=
  ⟨d.entries.filter fun e => keep e.1 e.2, d.ascending.filter _⟩

theorem selected_ascending {β : Type} (pick : α → Option β) {l : List (κ × α)}
    (h : l.Pairwise (fun a b => compare a.1 b.1 = .lt)) :
    (l.filterMap fun e => (pick e.2).map (e.1, ·)).Pairwise
      (fun a b => compare a.1 b.1 = .lt) := by
  refine h.filterMap _ fun a b hab c hc d hd => ?_
  simp only [Option.map_eq_some_iff] at hc hd
  obtain ⟨_, _, rfl⟩ := hc
  obtain ⟨_, _, rfl⟩ := hd
  exact hab

/-- The values that a partial function gives, under their keys. -/
def filterMap {β : Type} (pick : α → Option β) (d : Dict κ α) : Dict κ β :=
  ⟨d.entries.filterMap fun e => (pick e.2).map (e.1, ·), selected_ascending pick d.ascending⟩

/-! ## Look-up -/

/-- The value of a key in a list of entries. -/
def find? (k : κ) : List (κ × α) → Option α
  | [] => none
  | (key, value) :: rest => if compare k key = .eq then some value else find? k rest

def get? (d : Dict κ α) (k : κ) : Option α := find? k d.entries

def contains (d : Dict κ α) (k : κ) : Bool := (d.get? k).isSome

/-! ## Insertion -/

/-- A list of ascending entries with a value for one key. -/
def place (k : κ) (v : α) : List (κ × α) → List (κ × α)
  | [] => [(k, v)]
  | (key, value) :: rest =>
      match compare k key with
      | .lt => (k, v) :: (key, value) :: rest
      | .eq => (k, v) :: rest
      | .gt => (key, value) :: place k v rest

theorem mem_place {k : κ} {v : α} {e : κ × α} {l : List (κ × α)} (h : e ∈ place k v l) :
    e = (k, v) ∨ e ∈ l := by
  induction l with
  | nil => simpa [place] using h
  | cons a rest ih =>
      obtain ⟨key, value⟩ := a
      rw [place] at h
      split at h
      · exact List.mem_cons.1 h
      · exact (List.mem_cons.1 h).imp id (List.mem_cons_of_mem _)
      · rcases List.mem_cons.1 h with h | h
        · exact .inr (h ▸ List.mem_cons_self)
        · exact (ih h).imp id (List.mem_cons_of_mem _)

theorem length_place {k : κ} (v : α) {l : List (κ × α)} (h : find? k l = none) :
    (place k v l).length = l.length + 1 := by
  induction l with
  | nil => rfl
  | cons a rest ih =>
      obtain ⟨key, value⟩ := a
      rw [find?] at h
      split at h
      · cases h
      rename_i hne
      rw [place]
      split
      · rfl
      · rename_i heq
        exact absurd heq hne
      · rw [List.length_cons, ih h, List.length_cons]

variable [Std.LawfulEqOrd κ]

theorem mem_of_find? {k : κ} {v : α} {l : List (κ × α)} (h : find? k l = some v) :
    (k, v) ∈ l := by
  induction l with
  | nil => simp [find?] at h
  | cons e rest ih =>
      obtain ⟨key, value⟩ := e
      rw [find?] at h
      split at h
      · simp_all
      · exact List.mem_cons_of_mem _ (ih h)

theorem mem_of_get? {d : Dict κ α} {k : κ} {v : α} (h : d.get? k = some v) :
    (k, v) ∈ d.entries :=
  mem_of_find? h

theorem find?_place_self (k : κ) (v : α) (l : List (κ × α)) : find? k (place k v l) = some v := by
  induction l with
  | nil => simp [place, find?]
  | cons a rest ih =>
      obtain ⟨key, value⟩ := a
      rw [place]
      split
      · simp [find?]
      · simp [find?]
      · rename_i hgt
        simp [find?, hgt, ih]

theorem find?_place_of_ne {k m : κ} (h : k ≠ m) (v : α) (l : List (κ × α)) :
    find? m (place k v l) = find? m l := by
  induction l with
  | nil => simp [place, find?, h.symm]
  | cons a rest ih =>
      obtain ⟨key, value⟩ := a
      rw [place]
      split
      · simp [find?, h.symm]
      · rename_i heq
        obtain rfl : k = key := Std.LawfulEqOrd.eq_of_compare heq
        simp [find?, h.symm]
      · simp [find?, ih]

variable [Std.TransOrd κ]

theorem place_ascending (k : κ) (v : α) {l : List (κ × α)}
    (h : l.Pairwise (fun a b => compare a.1 b.1 = .lt)) :
    (place k v l).Pairwise (fun a b => compare a.1 b.1 = .lt) := by
  induction l with
  | nil => simp [place]
  | cons a rest ih =>
      obtain ⟨key, value⟩ := a
      have hrest := List.pairwise_cons.1 h
      rw [place]
      split
      · rename_i hlt
        refine List.pairwise_cons.2 ⟨fun e he => ?_, h⟩
        rcases List.mem_cons.1 he with rfl | he
        · exact hlt
        · exact Std.TransCmp.lt_trans hlt (hrest.1 e he)
      · rename_i heq
        obtain rfl : k = key := Std.LawfulEqOrd.eq_of_compare heq
        exact List.pairwise_cons.2 hrest
      · rename_i hgt
        refine List.pairwise_cons.2 ⟨fun e he => ?_, ih hrest.2⟩
        rcases mem_place he with rfl | he
        · exact Std.OrientedCmp.gt_iff_lt.1 hgt
        · exact hrest.1 e he

/-- The dictionary with a value for one key, in place of the one it had. -/
def insert (d : Dict κ α) (k : κ) (v : α) : Dict κ α :=
  ⟨place k v d.entries, place_ascending k v d.ascending⟩

/-- The dictionary of some pairs; of two pairs with one key the later one counts. -/
def ofList (pairs : List (κ × α)) : Dict κ α :=
  pairs.foldl (fun d pair => d.insert pair.1 pair.2) empty

@[simp] theorem get?_insert_self (d : Dict κ α) (k : κ) (v : α) :
    (d.insert k v).get? k = some v :=
  find?_place_self k v d.entries

theorem get?_insert_of_ne {d : Dict κ α} {k m : κ} (h : k ≠ m) (v : α) :
    (d.insert k v).get? m = d.get? m :=
  find?_place_of_ne h v d.entries

/-- A new key makes one more entry. -/
theorem size_insert {d : Dict κ α} {k : κ} (h : d.contains k = false) (v : α) :
    (d.insert k v).size = d.size + 1 := by
  rw [contains, Option.isSome_eq_false_iff, Option.isNone_iff_eq_none] at h
  exact length_place v h

/-! ## Entries and values -/

theorem find?_of_mem {k : κ} {v : α} {l : List (κ × α)}
    (hl : l.Pairwise (fun a b => compare a.1 b.1 = .lt)) (h : (k, v) ∈ l) :
    find? k l = some v := by
  induction l with
  | nil => cases h
  | cons e rest ih =>
      have hrest := List.pairwise_cons.1 hl
      rcases List.mem_cons.1 h with rfl | h
      · exact if_pos Std.ReflOrd.compare_self
      · have hlt : compare e.1 k = .lt := hrest.1 _ h
        have hgt : compare k e.1 = .gt := Std.OrientedCmp.gt_iff_lt.2 hlt
        have hne : ¬ compare k e.1 = .eq := by simp [hgt]
        exact (if_neg hne).trans (ih hrest.2 h)

theorem get?_eq_some_iff {d : Dict κ α} {k : κ} {v : α} :
    d.get? k = some v ↔ (k, v) ∈ d.entries :=
  ⟨mem_of_get?, find?_of_mem d.ascending⟩

theorem mem_keys_iff {d : Dict κ α} {k : κ} : k ∈ d.keys ↔ ∃ v, d.get? k = some v := by
  simp only [keys, List.mem_map, get?_eq_some_iff]
  constructor
  · rintro ⟨e, he, rfl⟩
    exact ⟨e.2, he⟩
  · rintro ⟨v, hv⟩
    exact ⟨(k, v), hv, rfl⟩

theorem contains_eq_false_iff {d : Dict κ α} {k : κ} : d.contains k = false ↔ k ∉ d.keys := by
  rw [mem_keys_iff, ← Option.isSome_iff_exists, contains, Bool.not_eq_true]

theorem get?_filter (d : Dict κ α) (keep : κ → α → Bool) (k : κ) :
    (d.filter keep).get? k = (d.get? k).filter (keep k) := by
  refine Option.ext fun v => ?_
  rw [get?_eq_some_iff, Option.filter_eq_some_iff, get?_eq_some_iff]
  exact List.mem_filter

theorem get?_filterMap {β : Type} (d : Dict κ α) (pick : α → Option β) (k : κ) :
    (d.filterMap pick).get? k = (d.get? k).bind pick := by
  refine Option.ext fun v => ?_
  rw [get?_eq_some_iff, Option.bind_eq_some_iff]
  constructor
  · intro h
    obtain ⟨e, he, hpick⟩ := List.mem_filterMap.1 h
    obtain ⟨w, hw, heq⟩ := Option.map_eq_some_iff.1 hpick
    obtain ⟨rfl, rfl⟩ : e.1 = k ∧ w = v := by simpa using heq
    exact ⟨e.2, get?_eq_some_iff.2 he, hw⟩
  · rintro ⟨u, hu, hpick⟩
    refine List.mem_filterMap.2 ⟨(k, u), get?_eq_some_iff.1 hu, ?_⟩
    rw [hpick]
    rfl

/-- In a dictionary made of pairs, the last pair with a key counts. -/
theorem get?_ofList [BEq κ] [LawfulBEq κ] (pairs : List (κ × α)) (k : κ) :
    (ofList pairs).get? k = pairs.reverse.lookup k := by
  -- by induction on the pairs, from any dictionary: what the pairs do not say, it says
  have hfold : ∀ (d : Dict κ α), (pairs.foldl (fun d pair => d.insert pair.1 pair.2) d).get? k =
      (pairs.reverse.lookup k).or (d.get? k) := by
    induction pairs with
    | nil => intro d; rfl
    | cons pair pairs ih =>
        intro d
        obtain ⟨key, value⟩ := pair
        rw [List.foldl_cons, ih, List.reverse_cons, List.lookup_append, Option.or_assoc]
        congr 1
        by_cases hkey : k = key
        · subst hkey
          simp
        · have hbeq : (k == key) = false := by simp [hkey]
          rw [get?_insert_of_ne (Ne.symm hkey), List.lookup_cons, hbeq]
          rfl
  have hempty : (empty : Dict κ α).get? k = none := rfl
  rw [ofList, hfold, hempty, Option.or_none]

omit [Std.TransOrd κ] in
/-- A dictionary lists each key once. -/
theorem nodup_keys (d : Dict κ α) : d.keys.Nodup := by
  refine List.pairwise_map.2 (d.ascending.imp fun {a b} hlt heq => ?_)
  rw [heq, Std.ReflOrd.compare_self] at hlt
  cases hlt

end Dict

end Unmangle
