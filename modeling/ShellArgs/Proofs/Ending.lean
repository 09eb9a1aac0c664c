namespace ShellArgs

variable {ε σ α β : Type}

-- What a computation results in, and the state after it.
def Ends (x : ExceptT ε (StateM σ) α) (s : σ) (Q : Except ε α → σ → Prop) : Prop :=
  Q (x.run.run s).1 (x.run.run s).2

namespace Ends

variable {x : ExceptT ε (StateM σ) α} {s : σ} {Q Q' : Except ε α → σ → Prop}

theorem mono (h : Ends x s Q) (hi : ∀ r s, Q r s → Q' r s) : Ends x s Q' :=
  hi _ _ h

theorem of_forall (h : ∀ r s, Q r s) : Ends x s Q :=
  h _ _

theorem imp {P : Prop} (h : P → Ends x s Q) : Ends x s fun r s => P → Q r s :=
  h

theorem pure_iff {a : α} : Ends (pure a) s Q ↔ Q (.ok a) s :=
  Iff.rfl

theorem throw_iff {e : ε} : Ends (throw e : ExceptT ε (StateM σ) α) s Q ↔ Q (.error e) s :=
  Iff.rfl

theorem get_iff {Q : Except ε σ → σ → Prop} :
    Ends (get : ExceptT ε (StateM σ) σ) s Q ↔ Q (.ok s) s :=
  Iff.rfl

theorem set_iff {Q : Except ε PUnit → σ → Prop} {t : σ} :
    Ends (set t : ExceptT ε (StateM σ) PUnit) s Q ↔ Q (.ok ()) t :=
  Iff.rfl

theorem modify_iff {Q : Except ε PUnit → σ → Prop} {f : σ → σ} :
    Ends (modify f : ExceptT ε (StateM σ) PUnit) s Q ↔ Q (.ok ()) (f s) :=
  Iff.rfl

theorem bind_iff {f : α → ExceptT ε (StateM σ) β} {Q : Except ε β → σ → Prop} :
    Ends (x >>= f) s Q ↔ Ends x s fun r s =>
      match r with
      | .ok a    => Ends (f a) s Q
      | .error e => Q (.error e) s := by
  simp only [Ends, bind, ExceptT.bind, ExceptT.mk, ExceptT.run, StateT.run, StateT.bind,
    ExceptT.bindCont]
  rcases x s with ⟨_ | _, _⟩ <;> rfl

theorem bind_ok {f : α → ExceptT ε (StateM σ) β} {Q : Except ε β → σ → Prop} {a : α} {t : σ}
    (h : x.run.run s = (.ok a, t)) : Ends (x >>= f) s Q ↔ Ends (f a) t Q := by
  rw [bind_iff, Ends, h]

theorem bind_error {f : α → ExceptT ε (StateM σ) β} {Q : Except ε β → σ → Prop} {e : ε} {t : σ}
    (h : x.run.run s = (.error e, t)) : Ends (x >>= f) s Q ↔ Q (.error e) t := by
  rw [bind_iff, Ends, h]

theorem tryCatch_iff {f : ε → ExceptT ε (StateM σ) α} :
    Ends (tryCatch x f) s Q ↔ Ends x s fun r s =>
      match r with
      | .ok a    => Q (.ok a) s
      | .error e => Ends (f e) s Q := by
  simp only [Ends, tryCatch, tryCatchThe, MonadExceptOf.tryCatch, ExceptT.tryCatch, ExceptT.mk,
    ExceptT.run, StateT.run, bind, StateT.bind]
  rcases x s with ⟨_ | _, _⟩ <;> rfl

-- What a first part ends in is all that a second part has to rely on.
theorem bind {f : α → ExceptT ε (StateM σ) β} {Q : Except ε β → σ → Prop}
    (P : Except ε α → σ → Prop) (hx : Ends x s P) (ho : ∀ a s, P (.ok a) s → Ends (f a) s Q)
    (he : ∀ e s, P (.error e) s → Q (.error e) s) : Ends (x >>= f) s Q := by
  refine bind_iff.mpr (hx.mono fun r s h => ?_)
  cases r
  case ok a    => exact ho a s h
  case error e => exact he e s h

end Ends

theorem run_pure_eq_ok_iff {a b : α} {s t : σ} :
    (pure a : ExceptT ε (StateM σ) α).run.run s = (.ok b, t) ↔ a = b ∧ s = t :=
  ⟨fun h => by cases h; exact ⟨rfl, rfl⟩, fun ⟨ha, hs⟩ => by rw [ha, hs]; rfl⟩

theorem run_get_bind (f : σ → ExceptT ε (StateM σ) α) (s : σ) :
    (get >>= f).run.run s = (f s).run.run s :=
  rfl

theorem run_bind_eq_ok_iff {x : ExceptT ε (StateM σ) α} {f : α → ExceptT ε (StateM σ) β} {s u : σ}
    {b : β} : (x >>= f).run.run s = (.ok b, u) ↔
      ∃ a t, x.run.run s = (.ok a, t) ∧ (f a).run.run t = (.ok b, u) := by
  simp only [bind, ExceptT.bind, ExceptT.mk, ExceptT.run, StateT.run, StateT.bind, ExceptT.bindCont]
  rcases x s with ⟨e | a, t⟩
  case error => exact ⟨(nomatch ·), fun ⟨_, _, h, _⟩ => nomatch h⟩
  case ok    => exact ⟨fun h => ⟨a, t, rfl, h⟩, fun ⟨_, _, rfl, h⟩ => h⟩

variable {R : σ → σ → Prop}

-- Whatever comes of it, the computation moves the state only along the relation.
def Within (R : σ → σ → Prop) (x : ExceptT ε (StateM σ) α) : Prop :=
  ∀ s, Ends x s fun _ t => R s t

-- If it fails, the computation has moved the state only along the relation.
def FailsWithin (R : σ → σ → Prop) (x : ExceptT ε (StateM σ) α) : Prop :=
  ∀ s, Ends x s fun r t => ∀ e, r = .error e → R s t

namespace Within

variable {x : ExceptT ε (StateM σ) α}

theorem modify {f : σ → σ} (h : ∀ s, R s (f s)) :
    Within R (modify f : ExceptT ε (StateM σ) PUnit) :=
  fun s => Ends.modify_iff.mpr (h s)

theorem fails (h : Within R x) : FailsWithin R x :=
  fun s => (h s).mono fun _ _ hr _ _ => hr

section

variable [Std.Refl R]

theorem pure (a : α) : Within R (pure a : ExceptT ε (StateM σ) α) :=
  fun s => Ends.pure_iff.mpr (Std.Refl.refl s)

theorem throw (e : ε) : Within R (throw e : ExceptT ε (StateM σ) α) :=
  fun s => Ends.throw_iff.mpr (Std.Refl.refl s)

theorem get : Within R (get : ExceptT ε (StateM σ) σ) :=
  fun s => Ends.get_iff.mpr (Std.Refl.refl s)

end

variable [Trans R R R]

theorem bind {f : α → ExceptT ε (StateM σ) β} (hx : Within R x) (hf : ∀ a, Within R (f a)) :
    Within R (x >>= f) :=
  fun s => Ends.bind _ (hx s) (fun a t hr => (hf a t).mono fun _ _ => Trans.trans hr) fun _ _ => id

theorem tryCatch {f : ε → ExceptT ε (StateM σ) α} (hx : Within R x) (hf : ∀ e, Within R (f e)) :
    Within R (tryCatch x f) := by
  refine fun s => Ends.tryCatch_iff.mpr ((hx s).mono fun r t hr => ?_)
  cases r
  case ok      => exact hr
  case error e => exact (hf e t).mono fun _ _ => Trans.trans hr

-- A computation that fails within the relation can follow one that never leaves it.
theorem bind_fails {f : α → ExceptT ε (StateM σ) β} (hx : Within R x)
    (hf : ∀ a, FailsWithin R (f a)) : FailsWithin R (x >>= f) :=
  fun s => Ends.bind _ (hx s)
    (fun a t hr => (hf a t).mono fun _ _ h e he => Trans.trans hr (h e he)) fun _ _ hr _ _ => hr

end Within

end ShellArgs
