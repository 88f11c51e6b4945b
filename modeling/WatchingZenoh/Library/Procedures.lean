import Mathlib

/-! Procedures that change a state and answer or fail, with what they ensure of the state in either
case. A failure keeps what was changed before it. -/

namespace WatchingZenoh.Procedures

variable {σ ε α β : Type}

/-- What a procedure gives, and the state it leaves. -/
def Proc (σ ε α : Type) : Type := σ → Except ε α × σ

instance monadProc : Monad (Proc σ ε) where
  pure a := fun s => (.ok a, s)
  bind x f := fun s =>
    match x s with
    | (.ok a, s') => f a s'
    | (.error e, s') => (.error e, s')

def read (f : σ → α) : Proc σ ε α := fun s => (.ok (f s), s)

def modify (f : σ → σ) : Proc σ ε Unit := fun s => (.ok (), f s)

def throw (e : ε) : Proc σ ε α := fun s => (.error e, s)

/-- The items one after another; the first failure ends them. -/
def forEach (f : α → Proc σ ε Unit) : List α → Proc σ ε Unit
  | [] => pure ()
  | a :: rest => do
    f a
    forEach f rest

/-- From a state as `P` asks, an answer meets `Q` and a failure `R`. -/
def Ensures (P : σ → Prop) (x : Proc σ ε α) (Q : α → σ → Prop) (R : σ → Prop) : Prop :=
  ∀ s, P s → (∀ a s', x s = (.ok a, s') → Q a s') ∧ ∀ e s', x s = (.error e, s') → R s'

/-- A property of the state is kept, whether the procedure fails or not. -/
def Keeps (I : σ → Prop) (x : Proc σ ε α) : Prop := Ensures I x (fun _ => I) I

variable {P P' R R' I : σ → Prop} {Q Q' : α → σ → Prop} {T : β → σ → Prop} {x : Proc σ ε α}
  {f : α → Proc σ ε β}

theorem ensures_pure {a : α} (h : ∀ s, P s → Q a s) : Ensures P (pure a : Proc σ ε α) Q R := by
  intro s hs
  refine ⟨fun b s' hrun => ?_, fun e s' hrun => by cases hrun⟩
  cases hrun
  exact h s hs

theorem ensures_throw {e : ε} (h : ∀ s, P s → R s) : Ensures P (throw e : Proc σ ε α) Q R := by
  intro s hs
  refine ⟨fun b s' hrun => (by cases hrun), fun e' s' hrun => ?_⟩
  cases hrun
  exact h s hs

theorem ensures_read {g : σ → α} (h : ∀ s, P s → Q (g s) s) :
    Ensures P (read g : Proc σ ε α) Q R := by
  intro s hs
  refine ⟨fun b s' hrun => ?_, fun e s' hrun => by cases hrun⟩
  cases hrun
  exact h s hs

theorem ensures_modify {g : σ → σ} {Q : Unit → σ → Prop} (h : ∀ s, P s → Q () (g s)) :
    Ensures P (modify g : Proc σ ε Unit) Q R := by
  intro s hs
  refine ⟨fun b s' hrun => ?_, fun e s' hrun => by cases hrun⟩
  cases hrun
  exact h s hs

theorem bind_of_ok {s s' : σ} {a : α} (h : x s = (.ok a, s')) : (x >>= f) s = f a s' := by
  simp only [Bind.bind, h]

theorem bind_of_error {s s' : σ} {e : ε} (h : x s = (.error e, s')) :
    (x >>= f) s = (.error e, s') := by
  simp only [Bind.bind, h]

theorem ensures_bind (hx : Ensures P x Q R) (hf : ∀ a, Ensures (Q a) (f a) T R) :
    Ensures P (x >>= f) T R := by
  intro s hs
  obtain ⟨hok, herror⟩ := hx s hs
  rcases hfirst : x s with ⟨e | a, s'⟩
  · rw [bind_of_error hfirst]
    refine ⟨fun b t ht => (by cases ht), fun e' t ht => ?_⟩
    cases ht
    exact herror e s' hfirst
  · rw [bind_of_ok hfirst]
    exact hf a s' (hok a s' hfirst)

theorem Ensures.weaken (h : Ensures P x Q R) (hP : ∀ s, P' s → P s) (hQ : ∀ a s, Q a s → Q' a s)
    (hR : ∀ s, R s → R' s) : Ensures P' x Q' R' := by
  intro s hs
  obtain ⟨hok, herror⟩ := h s (hP s hs)
  exact ⟨fun a s' hrun => hQ a s' (hok a s' hrun), fun e s' hrun => hR s' (herror e s' hrun)⟩

theorem keeps_bind (hx : Keeps I x) (hf : ∀ a, Keeps I (f a)) : Keeps I (x >>= f) :=
  ensures_bind hx hf

theorem keeps_pure (a : α) : Keeps I (pure a : Proc σ ε α) := ensures_pure fun _ hs => hs

theorem keeps_throw (e : ε) : Keeps I (throw e : Proc σ ε α) := ensures_throw fun _ hs => hs

theorem keeps_read (g : σ → α) : Keeps I (read g : Proc σ ε α) := ensures_read fun _ hs => hs

theorem keeps_modify {g : σ → σ} (h : ∀ s, I s → I (g s)) : Keeps I (modify g : Proc σ ε Unit) :=
  ensures_modify h

theorem keeps_forEach {g : α → Proc σ ε Unit} (h : ∀ a, Keeps I (g a)) (items : List α) :
    Keeps I (forEach g items) := by
  induction items with
  | nil => exact keeps_pure ()
  | cons a rest ih => exact keeps_bind (h a) fun _ => ih

end WatchingZenoh.Procedures
