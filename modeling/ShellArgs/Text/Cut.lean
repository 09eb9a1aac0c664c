namespace ShellArgs.Text

def startsWith (s start : String) : Bool :=
  start.toList.isPrefixOf s.toList

def cut (sep : Char) (s : String) : String × Option String :=
  let after := match s.toList.dropWhile (· != sep) with
    | []     => none
    | _ :: t => some (String.ofList t)
  (String.ofList (s.toList.takeWhile (· != sep)), after)

theorem startsWith_iff {s start : String} : startsWith s start ↔ start.toList <+: s.toList := by
  simp [startsWith]

theorem startsWith_empty (s : String) : startsWith s "" := by
  simp [startsWith_iff]

theorem startsWith_self (s : String) : startsWith s s := by
  simp [startsWith_iff]

theorem startsWith_append (s t : String) : startsWith (s ++ t) s := by
  simp [startsWith_iff]

theorem startsWith_trans {s t u : String} (h₁ : startsWith t u) (h₂ : startsWith s t) :
    startsWith s u := by
  rw [startsWith_iff] at *
  exact h₁.trans h₂

theorem cut_none {sep : Char} {s a : String} (h : cut sep s = (a, none)) : a = s := by
  simp only [cut, Prod.mk.injEq] at h
  obtain ⟨rfl, h⟩ := h
  split at h <;> simp at h
  case h_1 h' =>
    have := List.takeWhile_append_dropWhile (p := (· != sep)) (l := s.toList)
    rw [h', List.append_nil] at this
    rw [this, String.ofList_toList]

theorem cut_some {sep : Char} {s a b : String} (h : cut sep s = (a, some b)) :
    s.toList = a.toList ++ sep :: b.toList := by
  simp only [cut, Prod.mk.injEq] at h
  obtain ⟨rfl, h⟩ := h
  split at h <;> simp at h
  case h_2 c t h' =>
    subst h
    have hc : c = sep := by
      simpa [h'] using List.head?_dropWhile_not (· != sep) s.toList
    subst hc
    rw [String.toList_ofList, String.toList_ofList, ← h', List.takeWhile_append_dropWhile]

end ShellArgs.Text
