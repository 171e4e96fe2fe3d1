import AvroIdl.Diagnostic.Report

/-!
# What a computation guarantees

The computations of a build may stop with a diagnostic and change a state. `Ensures` tells what
holds of the value and the state whenever they do not stop, and `Yields` and `Gives` what holds of
the value alone; the rules below take such a statement apart along the steps of a computation.
-/
namespace AvroIdl

section Run

variable {ε σ α β : Type} {x : ExceptT ε (StateM σ) α} {f : α → ExceptT ε (StateM σ) β} {s s' : σ}

theorem bind_run_of_ok {a : α} (h : x.run s = (.ok a, s')) : (x >>= f).run s = (f a).run s' := by
  change (StateT.bind x.run (ExceptT.bindCont f)) s = _
  simp only [StateT.bind, h]
  rfl

theorem bind_run_of_error {e : ε} (h : x.run s = (.error e, s')) :
    (x >>= f).run s = (.error e, s') := by
  change (StateT.bind x.run (ExceptT.bindCont f)) s = _
  simp only [StateT.bind, h]
  rfl

/-- Two computations in a row do not stop only if neither of them does. -/
theorem bind_run_eq_ok {b : β} (h : (x >>= f).run s = (.ok b, s')) :
    ∃ a s₁, x.run s = (.ok a, s₁) ∧ (f a).run s₁ = (.ok b, s') := by
  rcases hr : x.run s with ⟨result, s₁⟩
  cases result with
  | ok a => exact ⟨a, s₁, rfl, (bind_run_of_ok hr).symm.trans h⟩
  | error e => cases (bind_run_of_error (f := f) hr).symm.trans h

/-- Two computations in a row stop only if one of them does. -/
theorem bind_run_eq_error {e : ε} (h : (x >>= f).run s = (.error e, s')) :
    x.run s = (.error e, s') ∨ ∃ a s₁, x.run s = (.ok a, s₁) ∧ (f a).run s₁ = (.error e, s') := by
  rcases hr : x.run s with ⟨result, s₁⟩
  cases result with
  | ok a => exact .inr ⟨a, s₁, rfl, (bind_run_of_ok hr).symm.trans h⟩
  | error e' =>
    cases (bind_run_of_error (f := f) hr).symm.trans h
    exact .inl rfl

/-- Two computations in a row may be replaced by others that do the same. -/
theorem bind_run_congr {x' : ExceptT ε (StateM σ) α} {f' : α → ExceptT ε (StateM σ) β}
    (hx : x.run s = x'.run s)
    (hf : ∀ a s₁, x.run s = (.ok a, s₁) → (f a).run s₁ = (f' a).run s₁) :
    (x >>= f).run s = (x' >>= f').run s := by
  rcases hr : x.run s with ⟨result, s₁⟩
  cases result with
  | ok a =>
    rw [bind_run_of_ok hr, bind_run_of_ok (hx ▸ hr)]
    exact hf a s₁ hr
  | error e => rw [bind_run_of_error hr, bind_run_of_error (hx ▸ hr)]

end Run

section Ensures

variable {ε σ α β : Type}

/-- Started where `pre` holds, the computation stops with an error or ends where `post` holds. -/
def Ensures (pre : σ → Prop) (x : ExceptT ε (StateM σ) α) (post : α → σ → Prop) : Prop :=
  ∀ s, pre s → ∀ a s', x.run s = (.ok a, s') → post a s'

variable {pre : σ → Prop} {mid : α → σ → Prop} {post : β → σ → Prop}

theorem Ensures.bind {x : ExceptT ε (StateM σ) α} {f : α → ExceptT ε (StateM σ) β}
    (hx : Ensures pre x mid) (hf : ∀ a, Ensures (mid a) (f a) post) :
    Ensures pre (x >>= f) post := by
  intro s hs b s' h
  obtain ⟨a, s₁, hr, hb⟩ := bind_run_eq_ok h
  exact hf a s₁ (hx s hs a s₁ hr) b s' hb

theorem Ensures.pure {a : α} (h : ∀ s, pre s → mid a s) :
    Ensures pre (Pure.pure a : ExceptT ε (StateM σ) α) mid := by
  intro s hs b s' he
  cases he
  exact h s hs

theorem Ensures.throw {e : ε} : Ensures pre (MonadExcept.throw e : ExceptT ε (StateM σ) α) mid := by
  intro s _ a s' he
  cases he

theorem Ensures.get : Ensures pre (MonadState.get : ExceptT ε (StateM σ) σ)
    fun a s => a = s ∧ pre s := by
  intro s hs a s' he
  cases he
  exact ⟨rfl, hs⟩

theorem Ensures.set {s₁ : σ} {post : PUnit → σ → Prop} (h : ∀ s, pre s → post ⟨⟩ s₁) :
    Ensures pre (MonadStateOf.set s₁ : ExceptT ε (StateM σ) PUnit) post := by
  intro s hs a s' he
  cases he
  exact h s hs

theorem Ensures.mono {x : ExceptT ε (StateM σ) α} {pre' : σ → Prop} {mid' : α → σ → Prop}
    (hx : Ensures pre x mid) (hpre : ∀ s, pre' s → pre s) (hmid : ∀ a s, mid a s → mid' a s) :
    Ensures pre' x mid' :=
  fun s hs a s' he => hmid a s' (hx s (hpre s hs) a s' he)

end Ensures

section Yields

variable {ε α β : Type} {P : α → Prop} {Q : β → Prop}

/-- What the computation gives, if it gives anything, has the property. -/
def Yields (x : Except ε α) (P : α → Prop) : Prop := ∀ a, x = .ok a → P a

theorem Yields.bind {x : Except ε α} {f : α → Except ε β} (hx : Yields x P)
    (hf : ∀ a, P a → Yields (f a) Q) : Yields (x >>= f) Q := by
  intro b h
  cases x with
  | ok a => exact hf a (hx a rfl) b h
  | error e => cases h

theorem Yields.map {x : Except ε α} {f : α → β} (hx : Yields x P) (hf : ∀ a, P a → Q (f a)) :
    Yields (x.map f) Q := by
  intro b h
  cases x with
  | ok a =>
    cases h
    exact hf a (hx a rfl)
  | error e => cases h

theorem Yields.ok {a : α} (h : P a) : Yields (.ok a : Except ε α) P := by
  intro b he
  cases he
  exact h

theorem Yields.error {e : ε} : Yields (.error e : Except ε α) P := by
  intro b he
  cases he

theorem eq_ok_of_toOption {x : Except ε α} {a : α} (h : x.toOption = some a) : x = .ok a := by
  cases x with
  | ok b => exact congrArg _ (Option.some.inj h)
  | error e => cases h

/-- A check that succeeds on what the computation gives has something to succeed on. -/
theorem exists_ok_of_any {x : Except ε α} {p : α → Bool} (h : x.toOption.any p = true) :
    ∃ a, x = .ok a ∧ p a = true := by
  cases x with
  | ok a => exact ⟨a, rfl, h⟩
  | error e => cases h

theorem Yields.any (x : Except ε α) : Yields x fun _ => True := fun _ _ => trivial

end Yields

namespace Report

variable {α β : Type}

/-- Whatever the computation gives has the property. -/
def Gives (x : Report α) (P : α → Prop) : Prop := Ensures (fun _ => True) x fun a _ => P a

variable {P : α → Prop} {Q : β → Prop}

theorem Gives.bind {x : Report α} {f : α → Report β} (hx : x.Gives P)
    (hf : ∀ a, P a → (f a).Gives Q) : Report.Gives (x >>= f) Q :=
  Ensures.bind hx fun a => by
    intro s ha b s' he
    exact hf a ha s trivial b s' he

theorem Gives.pure {a : α} (h : P a) : Report.Gives (Pure.pure a) P :=
  Ensures.pure fun _ _ => h

theorem Gives.fail {d : Diagnostic} : (Report.fail d : Report α).Gives P := Ensures.throw

theorem Gives.any (x : Report α) : x.Gives fun _ => True := fun _ _ _ _ _ => trivial

theorem Gives.ofExcept {x : Except Diagnostic α} (h : Yields x P) :
    (Report.ofExcept x).Gives P := by
  cases x with
  | ok a => exact Gives.pure (h a rfl)
  | error d => exact Gives.fail

end Report

end AvroIdl
