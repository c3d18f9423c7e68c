/-
# Lexigraph.Proofs.Attempt -- what attempts lead to, alone and side by side

An attempt is a chain of binds, and what is said of it is said of its links. `Ensures` is a
statement about one attempt from one state: its answer and the state that it leaves, also
when it fails. `Stays` says that a kind of state is kept, and which failures may come up
from it. `Sim` sets two attempts side by side: from related states they succeed or
fail alike and leave related states. Each of the three has one lemma for a chain, so a
proof about a computation follows the text of the computation.
-/

import Lexigraph.Attempt

namespace Lexigraph

theorem bind_eq_ok_iff {ε α β : Type} {x : Except ε α} {f : α → Except ε β} {b : β} :
    x >>= f = .ok b ↔ ∃ a, x = .ok a ∧ f a = .ok b := by
  cases x with
  | error e => exact ⟨fun h => (nomatch h), fun ⟨_, h, _⟩ => (nomatch h)⟩
  | ok a => exact ⟨fun h => ⟨a, rfl, h⟩, fun ⟨a', h, hf⟩ => Except.ok.inj h ▸ hf⟩

theorem bind_eq_error_iff {ε α β : Type} {x : Except ε α} {f : α → Except ε β} {e : ε} :
    x >>= f = .error e ↔ x = .error e ∨ ∃ a, x = .ok a ∧ f a = .error e := by
  cases x with
  | error e' => simp [bind, Except.bind]
  | ok a => simp [bind, Except.bind]

/-- What comes after a result may rely on the result. -/
theorem bind_congr_ok {ε α β : Type} {x : Except ε α} {f f' : α → Except ε β}
    (h : ∀ a, x = .ok a → f a = f' a) : x >>= f = x >>= f' := by
  cases x with
  | error e => rfl
  | ok a => exact h a rfl

namespace Attempt

variable {ε σ τ α β γ δ : Type}

/-! ## One attempt -/

/-- From `s`, the answer of an attempt and the state that it leaves satisfy `post`. -/
def Ensures (x : Attempt ε σ α) (s : σ) (post : Except ε α → σ → Prop) : Prop :=
  post (x s).1 (x s).2

theorem Ensures.bind {x : Attempt ε σ α} {f : α → Attempt ε σ β} {s : σ}
    {mid : Except ε α → σ → Prop} {post : Except ε β → σ → Prop} (hx : Ensures x s mid)
    (stop : ∀ e s', mid (.error e) s' → post (.error e) s')
    (go : ∀ a s', mid (.ok a) s' → Ensures (f a) s' post) : Ensures (x >>= f) s post := by
  unfold Ensures at hx ⊢
  rw [bind_apply]
  revert hx
  rcases x s with ⟨answer, s'⟩
  intro hx
  cases answer with
  | error e => exact stop e s' hx
  | ok a => exact go a s' hx

theorem Ensures.pure {a : α} {s : σ} {post : Except ε α → σ → Prop} (h : post (.ok a) s) :
    Ensures (pure a) s post := h

theorem Ensures.mono {x : Attempt ε σ α} {s : σ} {mid post : Except ε α → σ → Prop}
    (hx : Ensures x s mid) (h : ∀ r s', mid r s' → post r s') : Ensures x s post :=
  h _ _ hx

theorem Ensures.and {x : Attempt ε σ α} {s : σ} {post post' : Except ε α → σ → Prop}
    (h : Ensures x s post) (h' : Ensures x s post') :
    Ensures x s fun r s' => post r s' ∧ post' r s' :=
  ⟨h, h'⟩

theorem Ensures.of_eq {x : Attempt ε σ α} {s s' : σ} {r : Except ε α}
    {post : Except ε α → σ → Prop} (h : Ensures x s post) (hx : x s = (r, s')) : post r s' := by
  unfold Ensures at h
  rwa [hx] at h

/-- To read the state is to go on with it. -/
theorem Ensures.get_bind {f : σ → Attempt ε σ β} {s : σ} {post : Except ε β → σ → Prop}
    (h : Ensures (f s) s post) : Ensures (get >>= f) s post := h

/-- A change of the state always succeeds. -/
theorem Ensures.modify_bind {change : σ → σ} {f : PUnit → Attempt ε σ β} {s : σ}
    {post : Except ε β → σ → Prop} (h : Ensures (f ⟨⟩) (change s) post) :
    Ensures (modify change >>= f) s post := h

/-- Where a result is needed to go on and the chain succeeds, the result is there. -/
theorem ofExcept_bind_eq_ok_iff {r : Except ε α} {f : α → Attempt ε σ β} {s t : σ} {b : β} :
    (ofExcept r >>= f) s = (.ok b, t) ↔ ∃ a, r = .ok a ∧ f a s = (.ok b, t) := by
  rw [bind_apply, ofExcept_apply]
  cases r with
  | error e => exact ⟨nofun, nofun⟩
  | ok a => exact ⟨fun h => ⟨a, rfl, h⟩, fun ⟨a', ha, h⟩ => Except.ok.inj ha ▸ h⟩

/-- Two chains do the same from a state if their first links do, and then what comes after. -/
theorem bind_eq_bind {x y : Attempt ε σ α} {f f' : α → Attempt ε σ β} {s : σ} (hx : x s = y s)
    (hf : ∀ a s', y s = (.ok a, s') → f a s' = f' a s') : (x >>= f) s = (y >>= f') s := by
  rw [bind_apply, bind_apply, hx]
  rcases hy : y s with ⟨answer, s'⟩
  cases answer with
  | error e => rfl
  | ok a => exact hf a s' hy

/-! ## What is kept -/

/-- From states in `inv`, an attempt fails with an allowed failure at most, and leaves a state in
`inv` whatever it answers. -/
def Stays (inv : σ → Prop) (allowed : ε → Prop) (x : Attempt ε σ α) : Prop :=
  ∀ s, inv s → (∀ e, (x s).1 = .error e → allowed e) ∧ inv (x s).2

/-- An attempt that may fail as it likes keeps states in `inv`. -/
abbrev Keeps (inv : σ → Prop) (x : Attempt ε σ α) : Prop := Stays inv (fun _ => True) x

namespace Stays

variable {inv : σ → Prop} {allowed : ε → Prop}

theorem of_keeps {x : Attempt ε σ α} (h : ∀ s, inv s → inv (x s).2) : Keeps inv x :=
  fun s hs => ⟨fun _ _ => trivial, h s hs⟩

theorem bind {x : Attempt ε σ α} {f : α → Attempt ε σ β} (hx : Stays inv allowed x)
    (hf : ∀ a, Stays inv allowed (f a)) : Stays inv allowed (x >>= f) := by
  intro s hs
  have h := hx s hs
  rw [bind_apply]
  revert h
  rcases x s with ⟨answer, s'⟩
  intro h
  cases answer with
  | error e => exact ⟨fun e' he => h.1 e' (congrArg Except.error (Except.error.inj he)), h.2⟩
  | ok a => exact hf a s' h.2

theorem pure (a : α) : Stays inv allowed (pure a : Attempt ε σ α) :=
  fun _ hs => ⟨fun _ he => (nomatch he), hs⟩

theorem throw {e : ε} (h : allowed e) : Stays inv allowed (throw e : Attempt ε σ α) :=
  fun _ hs => ⟨fun _ he => Except.error.inj he ▸ h, hs⟩

/-- What comes after the state was read may rely on the state. -/
theorem get_bind {f : σ → Attempt ε σ β} (h : ∀ s, inv s → Stays inv allowed (f s)) :
    Stays inv allowed (get >>= f) :=
  fun s hs => h s hs s hs

theorem modify {change : σ → σ} (h : ∀ s, inv s → inv (change s)) :
    Stays inv allowed (modify change : Attempt ε σ PUnit) :=
  fun s hs => ⟨fun _ he => (nomatch he), h s hs⟩

/-- A step that cannot fail. -/
theorem lift {m : StateM σ α} (h : ∀ s, inv s → inv (m s).2) :
    Stays inv allowed (liftM m : Attempt ε σ α) :=
  fun s hs => ⟨fun _ he => (nomatch he), h s hs⟩

/-- What comes after a result may rely on the result. -/
theorem ofExcept_bind {r : Except ε α} {f : α → Attempt ε σ β}
    (stop : ∀ e, r = .error e → allowed e) (go : ∀ a, r = .ok a → Stays inv allowed (f a)) :
    Stays inv allowed (ofExcept r >>= f) := by
  intro s hs
  rw [bind_apply, ofExcept_apply]
  cases r with
  | error e => exact ⟨fun e' he => Except.error.inj he ▸ stop e rfl, hs⟩
  | ok a => exact go a rfl s hs

theorem forM {as : List α} {f : α → Attempt ε σ PUnit}
    (hf : ∀ a ∈ as, Stays inv allowed (f a)) : Stays inv allowed (as.forM f) := by
  induction as with
  | nil => exact pure _
  | cons a as ih =>
    show Stays inv allowed (f a >>= fun _ => as.forM f)
    exact (hf a List.mem_cons_self).bind fun _ => ih fun b hb => hf b (List.mem_cons_of_mem _ hb)

end Stays

/-! ## Two attempts -/

/-- Two answers that are values in `rel`, or the same failure. -/
inductive SameAnswer (rel : α → β → Prop) : Except ε α → Except ε β → Prop
  | ok {a : α} {b : β} : rel a b → SameAnswer rel (.ok a) (.ok b)
  | error (e : ε) : SameAnswer rel (.error e) (.error e)

theorem SameAnswer.eq {x y : Except ε α} (h : SameAnswer Eq x y) : x = y := by
  cases h with
  | ok h => rw [h]
  | error e => rfl

theorem SameAnswer.imp {rel rel' : α → β → Prop} {x : Except ε α} {y : Except ε β}
    (h : SameAnswer rel x y) (hrel : ∀ a b, x = .ok a → y = .ok b → rel a b → rel' a b) :
    SameAnswer rel' x y := by
  cases h with
  | ok h => exact .ok (hrel _ _ rfl rfl h)
  | error e => exact .error e

theorem SameAnswer.mono {rel rel' : α → β → Prop} {x : Except ε α} {y : Except ε β}
    (h : SameAnswer rel x y) (hrel : ∀ a b, x = .ok a → rel a b → rel' a b) :
    SameAnswer rel' x y :=
  h.imp fun a b ha _ => hrel a b ha

/-- From states in `inv`, two attempts answer alike, values in `rel`, and leave states in `inv`
whatever they answer. -/
def Sim (inv : σ → τ → Prop) (rel : α → β → Prop) (x : Attempt ε σ α) (y : Attempt ε τ β) :
    Prop :=
  ∀ s t, inv s t → SameAnswer rel (x s).1 (y t).1 ∧ inv (x s).2 (y t).2

namespace Sim

variable {inv : σ → τ → Prop} {rel : α → β → Prop} {post : γ → δ → Prop}

theorem bind {x : Attempt ε σ α} {y : Attempt ε τ β} {f : α → Attempt ε σ γ}
    {f' : β → Attempt ε τ δ} (hx : Sim inv rel x y)
    (hf : ∀ a b, rel a b → Sim inv post (f a) (f' b)) : Sim inv post (x >>= f) (y >>= f') := by
  intro s t hst
  have h := hx s t hst
  rw [bind_apply, bind_apply]
  revert h
  rcases x s with ⟨answer, s'⟩
  rcases y t with ⟨answer', t'⟩
  rintro ⟨hanswer, hst'⟩
  cases hanswer with
  | error e => exact ⟨.error e, hst'⟩
  | ok hab => exact hf _ _ hab s' t' hst'

theorem pure {a : α} {b : β} (h : rel a b) :
    Sim inv rel (pure a : Attempt ε σ α) (pure b : Attempt ε τ β) :=
  fun _ _ hst => ⟨.ok h, hst⟩

theorem throw (e : ε) : Sim inv rel (throw e : Attempt ε σ α) (throw e : Attempt ε τ β) :=
  fun _ _ hst => ⟨.error e, hst⟩

/-- Both read their state: they go on from two related states that are known. -/
theorem get_bind {f : σ → Attempt ε σ γ} {f' : τ → Attempt ε τ δ}
    (h : ∀ s t, inv s t → Sim inv post (f s) (f' t)) : Sim inv post (get >>= f) (get >>= f') :=
  fun s t hst => h s t hst s t hst

theorem modify {change : σ → σ} {change' : τ → τ}
    (h : ∀ s t, inv s t → inv (change s) (change' t)) :
    Sim inv Eq (modify change : Attempt ε σ PUnit) (modify change' : Attempt ε τ PUnit) :=
  fun s t hst => ⟨.ok rfl, h s t hst⟩

end Sim

end Attempt

end Lexigraph
