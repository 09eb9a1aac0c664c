namespace ShellArgs

abbrev Ordered (α : Type) := List (String × α)

namespace Ordered

variable {α : Type}

def get? (t : Ordered α) (name : String) : Option α :=
  t.lookup name

-- A known name keeps its place and gets the new value. A new name goes to the end.
def put : Ordered α → String → α → Ordered α
  | [],          name, v => [(name, v)]
  | (n, w) :: t, name, v => if n = name then (name, v) :: t else (n, w) :: put t name v

def names (t : Ordered α) : List String :=
  t.map Prod.fst

def ofEntries (es : List (String × α)) : Ordered α :=
  es.foldl (fun t (n, v) => t.put n v) []

@[simp] theorem get?_put_self {t : Ordered α} {n : String} {v : α} :
    (t.put n v).get? n = some v := by
  induction t with
  | nil => simp [put, get?]
  | cons e t hi =>
    obtain ⟨k, w⟩ := e
    by_cases h : k = n
    · simp [put, get?, h]
    · have hb : (n == k) = false := by simpa using Ne.symm h
      simpa [put, get?, List.lookup_cons, h, hb] using hi

theorem get?_put_of_ne {t : Ordered α} {n m : String} {v : α} (h : m ≠ n) :
    (t.put n v).get? m = t.get? m := by
  induction t with
  | nil => simp [put, get?, h]
  | cons e t hi =>
    obtain ⟨k, w⟩ := e
    by_cases hm : m = k
    · subst hm; simp [put, get?, h]
    · have hb : (m == k) = false := by simpa using hm
      by_cases hk : k = n
      · subst hk; simp [put, get?, List.lookup_cons, hb]
      · simpa [put, get?, List.lookup_cons, hk, hb] using hi

theorem names_put {t : Ordered α} {n : String} {v : α} :
    (t.put n v).names = if n ∈ t.names then t.names else t.names ++ [n] := by
  induction t with
  | nil => simp [put, names]
  | cons e t hi =>
    obtain ⟨k, w⟩ := e
    simp only [names] at hi ⊢
    by_cases hk : k = n
    · simp [put, hk]
    · by_cases hn : n ∈ t.map Prod.fst
      · simp [put, hk, hi, hn]
      · simp [put, hk, hi, hn, Ne.symm hk]

theorem get?_eq_some_iff {t : Ordered α} {n : String} {v : α} (h : t.names.Nodup) :
    t.get? n = some v ↔ (n, v) ∈ t := by
  induction t with
  | nil => simp [get?]
  | cons e t hi =>
    obtain ⟨k, w⟩ := e
    have ⟨hk, ht⟩ := List.nodup_cons.mp h
    by_cases hn : n = k
    · subst hn
      have hv : (n, v) ∉ t := fun hm => hk (List.mem_map.mpr ⟨_, hm, rfl⟩)
      simp [get?, hv, eq_comm]
    · have hb : (n == k) = false := by simpa using hn
      simpa [get?, List.lookup_cons, hb, hn] using hi ht

theorem put_of_not_mem {t : Ordered α} {n : String} {v : α} (h : n ∉ t.names) :
    t.put n v = t ++ [(n, v)] := by
  induction t with
  | nil => rfl
  | cons e t hi =>
    obtain ⟨k, w⟩ := e
    simp only [names, List.map_cons, List.mem_cons, not_or] at h
    simp [put, Ne.symm h.1, hi h.2]

end Ordered

end ShellArgs
