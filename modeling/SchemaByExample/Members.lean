/-! Named members in order. A name that is inserted again keeps its first place and takes
the last value. -/
namespace SchemaByExample

abbrev Members (α : Type) := List (String × α)

namespace Members

variable {α β : Type}

def insert (key : String) (value : α) : Members α → Members α
  | [] => [(key, value)]
  | (k, v) :: rest => if k = key then (k, value) :: rest else (k, v) :: insert key value rest

def find? (key : String) : Members α → Option α
  | [] => none
  | (k, v) :: rest => if k = key then some v else find? key rest

def keys (members : Members α) : List String := members.map (·.1)

/-- The members inserted one after the other into `start`. -/
def insertAll (start : Members α) (pairs : List (String × α)) : Members α :=
  pairs.foldl (fun acc p => insert p.1 p.2 acc) start

def ofPairs (pairs : List (String × α)) : Members α := insertAll [] pairs

@[simp] theorem keys_cons (m : String × α) (rest : Members α) :
    keys (m :: rest) = m.1 :: keys rest := rfl

theorem mem_keys {m : String × α} {members : Members α} (h : m ∈ members) :
    m.1 ∈ keys members := List.mem_map_of_mem h

theorem find?_insert (key k : String) (value : α) (members : Members α) :
    find? k (insert key value members) = if key = k then some value else find? k members := by
  induction members with
  | nil => simp [insert, find?]
  | cons m rest ih =>
    by_cases h : m.1 = key
    · by_cases hk : key = k <;> simp [insert, find?, h, hk]
    · by_cases hk : m.1 = k
      · subst hk
        simp [insert, find?, h, Ne.symm h]
      · simp [insert, find?, h, hk, ih]

theorem find?_of_mem {k : String} {value : α} {members : Members α} (hk : (keys members).Nodup)
    (h : (k, value) ∈ members) : find? k members = some value := by
  induction members with
  | nil => cases h
  | cons m rest ih =>
    obtain ⟨hm, hrest⟩ := List.nodup_cons.mp hk
    cases h with
    | head => simp [find?]
    | tail _ h =>
      have hne : m.1 ≠ k := fun he => hm (List.mem_map.mpr ⟨_, h, he.symm⟩)
      rw [find?, if_neg hne, ih hrest h]

theorem find?_of_notMem {k : String} {members : Members α} (h : k ∉ keys members) :
    find? k members = none := by
  induction members with
  | nil => rfl
  | cons m rest ih =>
    simp only [keys_cons, List.mem_cons, not_or] at h
    rw [find?, if_neg (Ne.symm h.1), ih h.2]

theorem mem_of_find? {k : String} {value : α} {members : Members α}
    (h : find? k members = some value) : (k, value) ∈ members := by
  induction members with
  | nil => simp [find?] at h
  | cons m rest ih =>
    by_cases hk : m.1 = k
    · rw [find?, if_pos hk, Option.some.injEq] at h
      subst hk h
      exact List.mem_cons_self
    · rw [find?, if_neg hk] at h
      exact List.mem_cons_of_mem m (ih h)

theorem find?_map (key : String) (f : α → β) (members : Members α) :
    find? key (members.map fun m => (m.1, f m.2)) = (find? key members).map f := by
  induction members with
  | nil => rfl
  | cons m rest ih =>
    by_cases hk : m.1 = key
    · simp [find?, hk]
    · rw [List.map_cons, find?, if_neg hk, find?, if_neg hk, ih]

/-- Members with the same images under one function have the same images under another, if values
of one name do. -/
theorem map_eq_of_map_eq {γ : Type} {f : α → β} {g : α → γ} {members others : Members α}
    (h : members.map (fun m => (m.1, f m.2)) = others.map fun m => (m.1, f m.2))
    (hg : ∀ m ∈ members, ∀ o ∈ others, m.1 = o.1 → f m.2 = f o.2 → g m.2 = g o.2) :
    members.map (fun m => (m.1, g m.2)) = others.map fun m => (m.1, g m.2) := by
  induction members generalizing others with
  | nil => rw [List.map_eq_nil_iff.mp h.symm]
  | cons m rest ih =>
    cases others with
    | nil => cases h
    | cons o others =>
      simp only [List.map_cons, List.cons.injEq, Prod.mk.injEq] at h
      obtain ⟨⟨hk, hv⟩, hrest⟩ := h
      have hvalue : g m.2 = g o.2 := hg m List.mem_cons_self o List.mem_cons_self hk hv
      have hmap := ih hrest fun n hn p hp =>
        hg n (List.mem_cons_of_mem m hn) p (List.mem_cons_of_mem o hp)
      rw [List.map_cons, List.map_cons, hk, hvalue, hmap]

/-- Members are told by their images, if each value is. -/
theorem eq_of_map_eq {f : α → β} {members others : Members α}
    (h : members.map (fun m => (m.1, f m.2)) = others.map fun m => (m.1, f m.2))
    (hf : ∀ m ∈ members, ∀ o ∈ others, f m.2 = f o.2 → m.2 = o.2) : members = others := by
  simpa using map_eq_of_map_eq (g := id) h fun m hm o ho _ => hf m hm o ho

theorem keys_insert (key : String) (value : α) (members : Members α) :
    keys (insert key value members) =
      if key ∈ keys members then keys members else keys members ++ [key] := by
  induction members with
  | nil => simp [insert, keys]
  | cons m rest ih =>
    by_cases h : m.1 = key
    · simp [insert, h]
    · simp only [insert, h, if_false, keys_cons, ih, List.mem_cons, Ne.symm h, false_or]
      split <;> simp

theorem insert_of_notMem {key : String} {value : α} {members : Members α}
    (h : key ∉ keys members) : insert key value members = members ++ [(key, value)] := by
  induction members with
  | nil => rfl
  | cons m rest ih =>
    simp only [keys, List.map_cons, List.mem_cons, not_or] at h
    simp [insert, Ne.symm h.1, ih (by simpa [keys] using h.2)]

theorem insert_of_mem {key : String} (value : α) {members : Members α}
    (hn : (keys members).Nodup) (h : key ∈ keys members) :
    insert key value members =
      members.map fun m => (m.1, if m.1 = key then value else m.2) := by
  induction members with
  | nil => cases h
  | cons m rest ih =>
    obtain ⟨hm, hrest⟩ : m.1 ∉ keys rest ∧ (keys rest).Nodup := List.nodup_cons.mp hn
    by_cases hk : m.1 = key
    · -- the name does not stand again behind its place
      have hsame : rest.map (fun m => (m.1, if m.1 = key then value else m.2)) = rest := by
        refine (List.map_congr_left fun o ho => ?_).trans (List.map_id rest)
        have hne : o.1 ≠ key := by
          rintro rfl
          exact hm (by rw [hk]; exact mem_keys ho)
        rw [if_neg hne]
        rfl
      rw [insert, if_pos hk, List.map_cons, hsame, if_pos hk]
    · have hmem : key ∈ keys rest := (List.mem_cons.mp h).resolve_left (Ne.symm hk)
      rw [insert, if_neg hk, ih hrest hmem, List.map_cons, if_neg hk]

theorem nodup_keys_insert {key : String} {value : α} {members : Members α}
    (h : (keys members).Nodup) : (keys (insert key value members)).Nodup := by
  rw [keys_insert]
  split
  · exact h
  · rename_i hk
    refine List.nodup_append.mpr ⟨h, by simp, fun k hm k' hm' he => hk ?_⟩
    rwa [← List.mem_singleton.mp hm', ← he]

theorem mem_insert {key : String} {value : α} {members : Members α} {m : String × α}
    (h : m ∈ insert key value members) : m = (key, value) ∨ m ∈ members := by
  induction members with
  | nil => exact .inl (List.mem_singleton.mp h)
  | cons m' rest ih =>
    rw [insert] at h
    split at h
    · rename_i hk
      obtain rfl | h := List.mem_cons.mp h
      · exact .inl (by rw [hk])
      · exact .inr (List.mem_cons_of_mem m' h)
    · obtain rfl | h := List.mem_cons.mp h
      · exact .inr List.mem_cons_self
      · exact (ih h).imp_right (List.mem_cons_of_mem m')

theorem nodup_keys_insertAll {start : Members α} (h : (keys start).Nodup)
    (pairs : List (String × α)) : (keys (insertAll start pairs)).Nodup := by
  induction pairs generalizing start with
  | nil => exact h
  | cons p rest ih => exact ih (nodup_keys_insert h)

theorem mem_insertAll {start : Members α} {pairs : List (String × α)} {m : String × α}
    (h : m ∈ insertAll start pairs) : m ∈ start ∨ m ∈ pairs := by
  induction pairs generalizing start with
  | nil => exact .inl h
  | cons p rest ih =>
    obtain h | h := ih h
    · obtain rfl | h := mem_insert h
      · exact .inr List.mem_cons_self
      · exact .inl h
    · exact .inr (List.mem_cons_of_mem p h)

theorem find?_append (key : String) (members others : Members α) :
    find? key (members ++ others) = (find? key members).or (find? key others) := by
  induction members with
  | nil => rfl
  | cons m rest ih =>
    by_cases hk : m.1 = key
    · simp [find?, hk]
    · simp [find?, hk, ih]

theorem find?_insertAll (key : String) (start : Members α) (pairs : List (String × α)) :
    find? key (insertAll start pairs) = (find? key pairs.reverse).or (find? key start) := by
  induction pairs generalizing start with
  | nil => rfl
  | cons p rest ih =>
    have hstep : insertAll start (p :: rest) = insertAll (insert p.1 p.2 start) rest := rfl
    rw [hstep, ih, find?_insert, List.reverse_cons, find?_append, Option.or_assoc]
    congr 1
    by_cases hk : p.1 = key <;> simp [find?, hk]

theorem nodup_keys_ofPairs (pairs : List (String × α)) : (keys (ofPairs pairs)).Nodup :=
  @nodup_keys_insertAll α [] List.nodup_nil pairs

theorem mem_of_mem_ofPairs {pairs : List (String × α)} {m : String × α}
    (h : m ∈ ofPairs pairs) : m ∈ pairs := (mem_insertAll h).resolve_left List.not_mem_nil

theorem insertAll_eq_append (start : Members α) (pairs : List (String × α))
    (h : (keys start ++ keys pairs).Nodup) : insertAll start pairs = start ++ pairs := by
  induction pairs generalizing start with
  | nil => simp [insertAll]
  | cons p rest ih =>
    have hp : p.1 ∉ keys start := by
      intro hm
      exact (List.nodup_append.mp h).2.2 p.1 hm p.1 (by simp [keys]) rfl
    have := ih (start ++ [p]) (by simpa [keys] using h)
    simpa [insertAll, insert_of_notMem hp] using this

theorem ofPairs_eq_self {pairs : List (String × α)} (h : (keys pairs).Nodup) :
    ofPairs pairs = pairs := by
  simpa [ofPairs] using insertAll_eq_append [] pairs (by simpa [keys] using h)

end Members

end SchemaByExample
