import MaterialModules.Synthesis.Mentioning
import Mathlib.Data.List.Forall2

set_option autoImplicit false

namespace MaterialModules

theorem forall₂_of_mapM_ok {α β ε : Type} {f : α → Except ε β} {xs : List α} {ys : List β}
    (h : xs.mapM f = .ok ys) : List.Forall₂ (fun x y => f x = .ok y) xs ys := by
  induction xs generalizing ys with
  | nil =>
    cases h
    exact .nil
  | cons x xs ih =>
    rw [List.mapM_cons] at h
    rcases hx : f x with e | y
    · rw [hx] at h
      cases h
    · rcases hxs : xs.mapM f with e | zs
      · rw [hx, hxs] at h
        cases h
      · rw [hx, hxs] at h
        cases h
        exact .cons hx (ih hxs)

theorem mapM_eq_error {α β ε : Type} {f : α → Except ε β} {before after : List α} {x : α} {e : ε}
    (hbefore : ∀ y ∈ before, ∃ z, f y = .ok z) (hx : f x = .error e) :
    (before ++ x :: after).mapM f = .error e := by
  induction before with
  | nil =>
    rw [List.nil_append, List.mapM_cons, hx]
    rfl
  | cons y before ih =>
    obtain ⟨z, hz⟩ := hbefore y List.mem_cons_self
    have hrest := ih fun y hy => hbefore y (List.mem_cons_of_mem _ hy)
    rw [List.cons_append, List.mapM_cons, hz, hrest]
    rfl

theorem exists_error_of_mapM {α β ε : Type} {f : α → Except ε β} {xs : List α} {e : ε}
    (h : xs.mapM f = .error e) :
    ∃ before x after ys, xs = before ++ x :: after ∧
      List.Forall₂ (fun x y => f x = .ok y) before ys ∧ f x = .error e := by
  induction xs with
  | nil => cases h
  | cons x xs ih =>
    rw [List.mapM_cons] at h
    rcases hx : f x with e' | y
    · rw [hx] at h
      cases h
      exact ⟨[], x, xs, [], rfl, .nil, hx⟩
    · rcases hxs : xs.mapM f with e' | ys
      · rw [hx, hxs] at h
        cases h
        obtain ⟨before, z, after, zs, rfl, hbefore, hz⟩ := ih hxs
        exact ⟨x :: before, z, after, y :: zs, rfl, .cons hx hbefore, hz⟩
      · rw [hx, hxs] at h
        cases h

theorem exists_mem_right {α β : Type} {R : α → β → Prop} {xs : List α} {ys : List β}
    (h : List.Forall₂ R xs ys) {x : α} (hx : x ∈ xs) : ∃ y ∈ ys, R x y := by
  induction h with
  | nil => cases hx
  | @cons a b as bs hab _ ih =>
    rcases List.mem_cons.mp hx with rfl | hx
    · exact ⟨b, List.mem_cons_self, hab⟩
    · obtain ⟨y, hy, hxy⟩ := ih hx
      exact ⟨y, List.mem_cons_of_mem _ hy, hxy⟩

theorem forall₂_comp {α β γ : Type} {R : α → β → Prop} {S : β → γ → Prop} {xs : List α} {ys : List β}
    {zs : List γ} (hxy : List.Forall₂ R xs ys) (hyz : List.Forall₂ S ys zs) :
    List.Forall₂ (fun x z => ∃ y, R x y ∧ S y z) xs zs := by
  induction hxy generalizing zs with
  | nil =>
    cases hyz
    exact .nil
  | cons hr _ ih =>
    cases hyz with
    | cons hs hyz => exact .cons ⟨_, hr, hs⟩ (ih hyz)

namespace Mentioning

variable {α β : Type}

instance : LawfulMonad Mentioning := LawfulMonad.mk' Mentioning
  (by
    rintro α ⟨_ | a, names⟩
    · rfl
    · show (⟨.ok a, names ++ []⟩ : Mentioning α) = _
      rw [List.append_nil])
  (fun _ _ => rfl)
  (by
    rintro α β γ ⟨_ | a, names⟩ f k
    · rfl
    · show bind (bind ⟨.ok a, names⟩ f) k = bind ⟨.ok a, names⟩ fun a => bind (f a) k
      cases hf : (f a).result with
      | error e => simp [bind, hf]
      | ok b => simp [bind, hf])

theorem bind_ok {x : Mentioning α} {f : α → Mentioning β} {b : β} (h : (x >>= f).result = .ok b) :
    ∃ a, x.result = .ok a ∧ (f a).result = .ok b := by
  rw [result_bind] at h
  cases hx : x.result with
  | error e => rw [hx] at h; cases h
  | ok a => rw [hx] at h; exact ⟨a, rfl, h⟩

theorem names_of_bind {x : Mentioning α} {f : α → Mentioning β} {b : β}
    (h : (x >>= f).result = .ok b) :
    ∃ a, x.result = .ok a ∧ (f a).result = .ok b ∧ (x >>= f).names = x.names ++ (f a).names := by
  obtain ⟨a, ha, hb⟩ := bind_ok h
  refine ⟨a, ha, hb, ?_⟩
  show (bind x f).names = _
  rw [bind, ha]

theorem ofExcept_ok (a : α) : ofExcept (.ok a) = Pure.pure a := rfl

theorem held_ok {x : Mentioning α} {p : α × List QualifiedName} (h : x.held.result = .ok p) :
    x.result = .ok p.1 := by
  unfold held at h
  cases hx : x.result with
  | error e => rw [hx] at h; cases h
  | ok a => rw [hx] at h; cases h; rfl

theorem forall₂_of_mapM_ok {f : α → Mentioning β} {xs : List α} {ys : List β}
    (h : (xs.mapM f).result = .ok ys) : List.Forall₂ (fun x y => (f x).result = .ok y) xs ys := by
  induction xs generalizing ys with
  | nil =>
    cases h
    exact .nil
  | cons x xs ih =>
    rw [List.mapM_cons] at h
    obtain ⟨y, hy, h⟩ := bind_ok h
    obtain ⟨zs, hzs, h⟩ := bind_ok h
    cases h
    exact .cons hy (ih hzs)

theorem mapM_ok_iff {f : α → Mentioning β} {xs : List α} :
    (∃ ys, (xs.mapM f).result = .ok ys) ↔ ∀ x ∈ xs, ∃ y, (f x).result = .ok y := by
  induction xs with
  | nil => simp
  | cons x xs ih =>
    rw [List.mapM_cons, List.forall_mem_cons, ← ih]
    constructor
    · rintro ⟨ys, h⟩
      obtain ⟨y, hy, h⟩ := bind_ok h
      obtain ⟨zs, hzs, -⟩ := bind_ok h
      exact ⟨⟨y, hy⟩, zs, hzs⟩
    · rintro ⟨⟨y, hy⟩, zs, hzs⟩
      exact ⟨y :: zs, by simp only [result_bind, hy, hzs, Except.bind, result_pure]⟩

def Refines (x y : Mentioning α) : Prop := ∀ a, x.result = .ok a → y.result = .ok a

theorem Refines.refl (x : Mentioning α) : x.Refines x := fun _ h => h

theorem refines_fail (e : ModuleError) (y : Mentioning α) : (fail e).Refines y := by
  intro a h
  cases h

theorem Refines.bind {x y : Mentioning α} {f g : α → Mentioning β} (h : x.Refines y)
    (hfg : ∀ a, (f a).Refines (g a)) : (x >>= f).Refines (y >>= g) := by
  intro b hb
  obtain ⟨a, ha, hb⟩ := bind_ok hb
  rw [result_bind, h a ha]
  exact hfg a b hb

def FailsSilently (x : Mentioning α) : Prop := ∀ e, x.result = .error e → x.names = []

theorem FailsSilently.of_names {x : Mentioning α} (h : x.names = []) : x.FailsSilently := fun _ _ => h

theorem FailsSilently.bind {x : Mentioning α} {f : α → Mentioning β} (hx : x.names = [])
    (hf : ∀ a, x.result = .ok a → (f a).FailsSilently) : (x >>= f).FailsSilently := by
  intro e he
  show (Mentioning.bind x f).names = []
  rw [result_bind] at he
  unfold Mentioning.bind
  cases hresult : x.result with
  | error e' => exact hx
  | ok a =>
    rw [hresult] at he
    show x.names ++ (f a).names = []
    rw [hx, hf a hresult e he, List.append_nil]

theorem FailsSilently.bind_of_ok {x : Mentioning α} {f : α → Mentioning β} (hx : x.FailsSilently)
    (hf : ∀ a, ∃ b, (f a).result = .ok b) : (x >>= f).FailsSilently := by
  intro e he
  show (Mentioning.bind x f).names = []
  rw [result_bind] at he
  unfold Mentioning.bind
  cases hresult : x.result with
  | error e' => exact hx e' hresult
  | ok a =>
    obtain ⟨b, hb⟩ := hf a
    rw [hresult] at he
    cases hb.symm.trans he

theorem names_held (x : Mentioning α) : x.held.names = [] := by
  unfold held
  cases x.result <;> rfl

end Mentioning

end MaterialModules
