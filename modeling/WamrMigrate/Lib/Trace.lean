import Mathlib.Logic.Basic

/-!
# Programs that leave events

A program leaves a list of events, and returns a value or returns early with an error. `Keeps` is the triple for such programs: what holds of all
events, of the value and of the error.
-/

namespace WamrMigrate

/-- What a program has done: its events, and its value or error. -/
structure Traced (ε σ α : Type) where
  events : List ε
  result : Except σ α

namespace Traced
variable {ε σ α β : Type}
variable {e : ε} {f : α → Traced ε σ β}

instance : Monad (Traced ε σ) where
  pure a := ⟨[], .ok a⟩
  bind x f :=
    match x.result with
    | .ok a => ⟨x.events ++ (f a).events, (f a).result⟩
    | .error e => ⟨x.events, .error e⟩

/-- An event. -/
def emit (e : ε) : Traced ε σ Unit := ⟨[e], .ok ()⟩

/-- An early return. -/
def fail (e : σ) : Traced ε σ α := ⟨[], .error e⟩

/-- A program for each element of a list, in its order. -/
def each (f : β → Traced ε σ Unit) : List β → Traced ε σ Unit
  | [] => pure ()
  | b :: bs => do
    f b
    each f bs

/-- All events satisfy `P`; a value that is returned satisfies `Q`, and an error `E`. -/
structure Keeps (P : ε → Prop) (x : Traced ε σ α) (Q : α → Prop) (E : σ → Prop) : Prop where
  events : ∀ e ∈ x.events, P e
  value : ∀ a, x.result = .ok a → Q a
  error : ∀ e, x.result = .error e → E e

variable {P : ε → Prop} {E : σ → Prop} {Q R : α → Prop} {x : Traced ε σ α}

theorem keeps_pure {a : α} (h : Q a) : Keeps P (pure a : Traced ε σ α) Q E := ⟨nofun, fun _ hb => Except.ok.inj hb ▸ h, nofun⟩

theorem keeps_fail {e : σ} (h : E e) : Keeps P (fail e : Traced ε σ α) Q E := ⟨nofun, nofun, fun _ he => Except.error.inj he ▸ h⟩

theorem keeps_emit (h : P e) : Keeps P (emit e : Traced ε σ Unit) (fun _ => True) E :=
  ⟨fun _ he => List.mem_singleton.1 he ▸ h, fun _ _ => trivial, nofun⟩

theorem Keeps.mono (h : Keeps P x Q E) (hvalue : ∀ a, Q a → R a) : Keeps P x R E := ⟨h.events, fun a ha => hvalue a (h.value a ha), h.error⟩

theorem Keeps.bind {S : β → Prop} (h : Keeps P x Q E) (hf : ∀ a, Q a → Keeps P (f a) S E) : Keeps P (x >>= f) S E := by
  obtain ⟨hevents, hvalue, herror⟩ := h
  obtain ⟨events, result⟩ := x
  cases result with
  | error e => exact ⟨hevents, nofun, fun e' he => herror e' (congrArg Except.error (Except.error.inj he))⟩
  | ok a =>
    obtain ⟨hevents', hvalue', herror'⟩ := hf a (hvalue a rfl)
    refine ⟨fun e he => ?_, hvalue', herror'⟩
    rcases List.mem_append.1 he with he | he
    · exact hevents e he
    · exact hevents' e he

theorem keeps_each {f : β → Traced ε σ Unit} {S : β → Prop} {bs : List β} (h : ∀ b ∈ bs, Keeps P (f b) (fun _ => S b) E) :
    Keeps P (each f bs) (fun _ => ∀ b ∈ bs, S b) E := by
  induction bs with
  | nil => exact keeps_pure nofun
  | cons b bs ih =>
    refine (h b List.mem_cons_self).bind fun _ hb => (ih fun c hc => h c (List.mem_cons_of_mem _ hc)).mono fun _ hbs => ?_
    exact List.forall_mem_cons.2 ⟨hb, hbs⟩

theorem events_bind (h : e ∈ x.events) : e ∈ (x >>= f).events := by
  obtain ⟨events, result⟩ := x
  cases result with
  | error => exact h
  | ok a => exact List.mem_append_left _ h

theorem events_bind_ok {a : α} (hok : x.result = .ok a) (h : e ∈ (f a).events) : e ∈ (x >>= f).events := by
  obtain ⟨events, result⟩ := x
  cases hok
  exact List.mem_append_right _ h

end Traced

end WamrMigrate
