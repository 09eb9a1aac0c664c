namespace ShellArgs.Outcome

variable {ε α β : Type}

@[simp] theorem pure_eq_ok {a : α} : (pure a : Except ε α) = .ok a :=
  rfl

@[simp] theorem ok_bind {a : α} {f : α → Except ε β} : (Except.ok a >>= f) = f a :=
  rfl

@[simp] theorem map_ok {a : α} {f : α → β} : (f <$> (Except.ok a : Except ε α)) = .ok (f a) :=
  rfl

theorem eq_ok_of_toOption {x : Except ε α} {a : α} (h : x.toOption = some a) : x = .ok a := by
  cases x with
  | error e => cases h
  | ok b    => exact congrArg Except.ok (Option.some.inj h)

theorem bind_eq_ok_iff {x : Except ε α} {f : α → Except ε β} {b : β} :
    (x >>= f) = .ok b ↔ ∃ a, x = .ok a ∧ f a = .ok b := by
  cases x with
  | error e => simp [bind, Except.bind]
  | ok a    => simp

-- What a first part ends in is all that a second part has to rely on.
theorem bind_ok {x : Except ε α} {f : α → Except ε β} {Q : β → Prop} (P : α → Prop)
    (hx : ∃ a, x = .ok a ∧ P a) (hf : ∀ a, P a → ∃ b, f a = .ok b ∧ Q b) :
    ∃ b, (x >>= f) = .ok b ∧ Q b := by
  have ⟨a, ha, hp⟩ := hx
  rw [ha, ok_bind]
  exact hf a hp

theorem mapM_eq_ok {f : α → Except ε β} {g : α → β} {as : List α} (h : ∀ a ∈ as, f a = .ok (g a)) :
    as.mapM f = .ok (as.map g) := by
  induction as with
  | nil => rfl
  | cons a as hi =>
    have ha := h a List.mem_cons_self
    have has := hi fun b hb => h b (List.mem_cons_of_mem a hb)
    simp [ha, has]

theorem mapM_ok {f : α → Except ε β} {as : List α} (P : β → Prop)
    (h : ∀ a ∈ as, ∃ b, f a = .ok b ∧ P b) : ∃ bs, as.mapM f = .ok bs ∧ ∀ b ∈ bs, P b := by
  induction as with
  | nil => exact ⟨[], rfl, by simp⟩
  | cons a as hi =>
    have ⟨b, hb, hp⟩ := h a List.mem_cons_self
    have ⟨bs, hbs, hps⟩ := hi fun a' ha => h a' (List.mem_cons_of_mem a ha)
    exact ⟨b :: bs, by simp [hb, hbs], by simpa using ⟨hp, hps⟩⟩

theorem exists_mapM {f : α → Except ε β} {as : List α} (h : ∀ a ∈ as, ∃ b, f a = .ok b) :
    ∃ bs, as.mapM f = .ok bs :=
  have ⟨bs, hbs, _⟩ := mapM_ok (fun _ => True) fun a ha =>
    have ⟨b, hb⟩ := h a ha
    ⟨b, hb, trivial⟩
  ⟨bs, hbs⟩

theorem exists_of_mapM_eq_ok {f : α → Except ε β} {as : List α} {bs : List β} {a : α}
    (h : as.mapM f = .ok bs) (ha : a ∈ as) : ∃ b ∈ bs, f a = .ok b := by
  induction as generalizing bs with
  | nil => cases ha
  | cons a' as hi =>
    rw [List.mapM_cons] at h
    have ⟨b, hb, h⟩ := bind_eq_ok_iff.mp h
    have ⟨bs', hbs, h⟩ := bind_eq_ok_iff.mp h
    cases h
    cases List.mem_cons.mp ha
    case inl he => exact ⟨b, List.mem_cons_self, he ▸ hb⟩
    case inr hm =>
      have ⟨b', hb', hf⟩ := hi hbs hm
      exact ⟨b', List.mem_cons_of_mem b hb', hf⟩

theorem exists_of_mem_mapM {f : α → Except ε β} {as : List α} {bs : List β} {b : β}
    (h : as.mapM f = .ok bs) (hb : b ∈ bs) : ∃ a ∈ as, f a = .ok b := by
  induction as generalizing bs with
  | nil =>
    cases h
    cases hb
  | cons a as hi =>
    rw [List.mapM_cons] at h
    have ⟨b', hb', h⟩ := bind_eq_ok_iff.mp h
    have ⟨bs', hbs, h⟩ := bind_eq_ok_iff.mp h
    cases h
    cases List.mem_cons.mp hb
    case inl he => exact ⟨a, List.mem_cons_self, he ▸ hb'⟩
    case inr hm =>
      have ⟨a', ha', hf⟩ := hi hbs hm
      exact ⟨a', List.mem_cons_of_mem a ha', hf⟩

theorem exists_of_mapM_eq_error {f : α → Except ε β} {as : List α} {e : ε}
    (h : as.mapM f = .error e) : ∃ a ∈ as, f a = .error e := by
  induction as with
  | nil => cases h
  | cons a as hi =>
    rw [List.mapM_cons] at h
    cases ha : f a with
    | error e' =>
      rw [ha] at h
      cases h
      exact ⟨a, List.mem_cons_self, ha⟩
    | ok b =>
      cases hbs : as.mapM f with
      | ok bs =>
        rw [ha, ok_bind, hbs] at h
        cases h
      | error e' =>
        rw [ha, ok_bind, hbs] at h
        cases h
        have ⟨a', hm, he⟩ := hi hbs
        exact ⟨a', List.mem_cons_of_mem a hm, he⟩

theorem length_of_mapM_eq_ok {f : α → Except ε β} {as : List α} {bs : List β}
    (h : as.mapM f = .ok bs) : bs.length = as.length := by
  induction as generalizing bs with
  | nil =>
    cases h
    rfl
  | cons a as hi =>
    rw [List.mapM_cons] at h
    have ⟨b, _, h⟩ := bind_eq_ok_iff.mp h
    have ⟨bs', hbs, h⟩ := bind_eq_ok_iff.mp h
    cases h
    simp [hi hbs]

-- A run whose steps end well and keep a property ends well, and with the property. The
-- property may speak of the part of the list that is done.
theorem foldlM_ok {f : β → α → Except ε β} {as : List α} {b : β} (P : List α → β → Prop)
    (hb : P [] b) (hf : ∀ done a b, P done b → ∃ b', f b a = .ok b' ∧ P (done ++ [a]) b') :
    ∃ b', as.foldlM f b = .ok b' ∧ P as b' := by
  suffices ∀ (as done : List α) (b : β), P done b →
      ∃ b', as.foldlM f b = .ok b' ∧ P (done ++ as) b' from this as [] b hb
  intro as
  induction as with
  | nil => exact fun done b hb => ⟨b, rfl, by simpa using hb⟩
  | cons a as hi =>
    intro done b hb
    have ⟨c, hc, hp⟩ := hf done a b hb
    have ⟨b', h, hp⟩ := hi (done ++ [a]) c hp
    exact ⟨b', by simpa [hc] using h, by simpa using hp⟩

-- What every step keeps holds at the end of a run that ends well.
theorem foldlM_kept {f : β → α → Except ε β} {as : List α} {b b' : β} (P : β → Prop)
    (hf : ∀ b a b', P b → f b a = .ok b' → P b') (hb : P b) (h : as.foldlM f b = .ok b') : P b' := by
  induction as generalizing b with
  | nil =>
    cases h
    exact hb
  | cons a as hi =>
    rw [List.foldlM_cons] at h
    have ⟨c, hc, h⟩ := bind_eq_ok_iff.mp h
    exact hi (hf b a c hb hc) h

theorem exists_of_foldlM_eq_error {f : β → α → Except ε β} {as : List α} {b : β} {e : ε}
    (h : as.foldlM f b = .error e) : ∃ a ∈ as, ∃ c, f c a = .error e := by
  induction as generalizing b with
  | nil => cases h
  | cons a as hi =>
    rw [List.foldlM_cons] at h
    cases ha : f b a with
    | error e' =>
      rw [ha] at h
      cases h
      exact ⟨a, List.mem_cons_self, b, ha⟩
    | ok c =>
      rw [ha, ok_bind] at h
      have ⟨a', hm, he⟩ := hi h
      exact ⟨a', List.mem_cons_of_mem a hm, he⟩

end ShellArgs.Outcome
