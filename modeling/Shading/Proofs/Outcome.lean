import Mathlib
import Shading.Diagnostic

/-! How sequenced work succeeds: each part of it does, in turn. -/
namespace Shading
open Except

variable {ε α β : Type} {p : Prop} {rest : Except ε β} {δ : Type}

variable {x : Except ε α} {f : α → Except ε β} {b : β}

theorem Except.bind_eq_ok : (x >>= f) = .ok b ↔ ∃ a, x = .ok a ∧ f a = .ok b := by
  cases x with
  | error e => simp [bind,Except.bind]
  | ok a => simp [bind,Except.bind]

@[simp] theorem Except.ok_bind (a : α) (f : α → Except ε β) : (ok a >>= f) = f a := rfl

@[simp] theorem Except.error_bind (e : ε) (f : α → Except ε β) : (error e >>= f) = .error e := rfl

variable {a : α}

@[simp] theorem Except.pure_eq_ok {b : α} : (pure a : Except ε α) = .ok b ↔ a = b := by
  simp [pure,Except.pure]

variable {e : ε}

theorem Except.ite_throw_eq_ok [Decidable p] :
    (if p then (throw e : Except ε α) >>= f else rest) = .ok b ↔ ¬p ∧ rest = .ok b := by
  by_cases h : p
  · simp [h,throw,throwThe,MonadExceptOf.throw]
  · simp [h]

@[simp] theorem Except.map_eq_ok {f : α → β} : x.map f = .ok b ↔ ∃ a, x = .ok a ∧ f a = b := by
  cases x with
  | error e => simp [Except.map]
  | ok a => simp [Except.map]

@[simp] theorem Except.mapError_eq_ok {f : ε → δ} : x.mapError f = .ok a ↔ x = .ok a := by
  cases x with
  | error e => simp [Except.mapError]
  | ok a => simp [Except.mapError]

theorem Except.bind_eq_error :
    (x >>= f) = .error e ↔ x = .error e ∨ ∃ a, x = .ok a ∧ f a = .error e := by
  cases x with
  | error e' => simp [bind,Except.bind]
  | ok a => simp [bind,Except.bind]

theorem Except.ite_throw_eq_error [Decidable p] {e' : ε} :
    (if p then (throw e : Except ε α) >>= f else rest) = .error e' ↔
      p ∧ e = e' ∨ ¬p ∧ rest = .error e' := by
  by_cases h : p
  · simp [h,throw,throwThe,MonadExceptOf.throw]
  · simp [h]

@[simp] theorem Except.pure_ne_error : (pure a : Except ε α) ≠ .error e := by
  simp [pure,Except.pure]

@[simp] theorem Except.map_eq_error {f : α → β} : x.map f = .error e ↔ x = .error e := by
  cases x with
  | error e' => simp [Except.map]
  | ok a => simp [Except.map]

@[simp] theorem Except.mapError_eq_error {f : ε → δ} {d : δ} :
    x.mapError f = .error d ↔ ∃ e, x = .error e ∧ f e = d := by
  cases x with
  | error e => simp [Except.mapError]
  | ok a => simp [Except.mapError]

theorem Except.eq_ok_of_toOption (given : x.toOption = some a) : x = .ok a := by
  cases x with
  | error e => cases given
  | ok b =>
    cases given
    rfl

theorem Except.exists_of_any {test : α → Bool} (given : x.toOption.any test = true) :
    ∃ a, x = .ok a ∧ test a = true := by
  cases x with
  | error e => cases given
  | ok a => exact ⟨a,rfl,given⟩

namespace Reporting

variable {j' : Journal}

def Gives (work : Reporting ε α) (a : α) : Prop := ∃ j j', work.run.run j = (.ok a, j')

variable {work : Reporting ε α} {a : α} {j : Journal}

theorem gives_of_run (ran : (work.run.run j).1 = .ok a) :
    work.Gives a := ⟨j,(work.run.run j).2,Prod.ext ran rfl⟩

theorem gives_pure {b : α} : (pure a : Reporting ε α).Gives b ↔ a = b := by
  constructor
  · rintro ⟨j,j',ran⟩
    cases ran
    rfl
  · rintro rfl
    exact ⟨{},{},rfl⟩

theorem gives_lift {x : Except ε α} : (liftM x : Reporting ε α).Gives a ↔ x = .ok a := by
  constructor
  · rintro ⟨j,j',ran⟩
    cases x <;> cases ran
    rfl
  · rintro rfl
    exact ⟨{},{},rfl⟩

theorem not_gives_throw {e : ε} : ¬(throw e : Reporting ε α).Gives a := by
  rintro ⟨j,j',ran⟩
  cases ran

variable {next : α → Reporting ε β} {b : β}

theorem exists_of_run_bind (ran : (work >>= next).run.run j = (.ok b, j')) :
    ∃ a t, work.run.run j = (.ok a, t) ∧ (next a).run.run t = (.ok b, j') := by
  rw [ExceptT.run_bind,StateT.run_bind] at ran
  cases first : work.run.run j with
  | mk outcome t =>
    rw [first] at ran
    cases outcome with
    | error e => cases ran
    | ok a => exact ⟨a,t,rfl,ran⟩

theorem Gives.of_bind (h : (work >>= next).Gives b) : ∃ a, work.Gives a ∧ (next a).Gives b := by
  obtain ⟨j,j',ran⟩ := h
  obtain ⟨a,t,first,second⟩ := exists_of_run_bind ran
  exact ⟨a,⟨j,t,first⟩,⟨t,j',second⟩⟩

variable {δ : Type}

theorem run_mapError_eq {f : ε → δ} {d : Except δ α} :
    (mapError f work).run.run j = (d, j') ↔ ∃ x, work.run.run j = (x, j') ∧ x.mapError f = d := by
  have split : (mapError f work).run.run j = ((work.run.run j).1.mapError f, (work.run.run j).2) := rfl
  rw [split]
  constructor
  · rintro ⟨⟩
    exact ⟨_,rfl,rfl⟩
  · rintro ⟨x,ran,rfl⟩
    rw [ran]

theorem run_mapError_eq_ok {f : ε → δ} :
    (mapError f work).run.run j = (.ok a, j') ↔ work.run.run j = (.ok a, j') := by
  simp [run_mapError_eq]

theorem Gives.of_mapError {f : ε → δ} (h : (mapError f work).Gives a) : work.Gives a := by
  obtain ⟨j,j',ran⟩ := h
  exact ⟨j,j',run_mapError_eq_ok.mp ran⟩

theorem Gives.of_tryCatch {handler : ε → Reporting ε α} (h : (tryCatch work handler).Gives a)
    (fails : ∀ e, ¬(handler e).Gives a) : work.Gives a := by
  obtain ⟨j,j',ran⟩ := h
  rw [ExceptT.run_tryCatch,StateT.run_bind] at ran
  cases first : work.run.run j with
  | mk outcome t =>
    rw [first] at ran
    cases outcome with
    | error e => exact absurd ⟨t,j',ran⟩ (fails e)
    | ok b =>
      cases ran
      exact ⟨j,t,first⟩

def Always (work : Reporting ε α) (a : α) : Prop := ∀ j, ∃ j', work.run.run j = (.ok a, j')

theorem always_pure (a : α) : (pure a : Reporting ε α).Always a := fun j => ⟨j,rfl⟩

theorem Always.bind (first : work.Always a) (second : (next a).Always b) : (work >>= next).Always b := by
  intro j
  obtain ⟨j',ran⟩ := first j
  obtain ⟨j'',ran'⟩ := second j'
  refine ⟨j'',?_⟩
  rw [ExceptT.run_bind,StateT.run_bind,ran]
  exact ran'

theorem run_bind_of_ok {k : Journal} (ran : work.run.run j = (.ok a, k)) :
    (work >>= next).run.run j = (next a).run.run k := by
  rw [ExceptT.run_bind,StateT.run_bind,ran]
  rfl

theorem always_of_run (ran : ∀ j, (work.run.run j).1 = .ok a) :
    work.Always a := fun j => ⟨(work.run.run j).2,Prod.ext (ran j) rfl⟩

theorem Always.mapError {f : ε → δ} (always : work.Always a) : (mapError f work).Always a := by
  intro j
  obtain ⟨j',ran⟩ := always j
  exact ⟨j',run_mapError_eq_ok.mpr ran⟩

theorem always_report (d : Diagnostic) : (report d : Reporting ε Unit).Always () := fun _ => ⟨_,rfl⟩

theorem always_reportAll (ds : Log) : (reportAll ds : Reporting ε Unit).Always () := fun _ => ⟨_,rfl⟩

theorem always_note (level : TraceLevel) (text : String) :
    (note level text : Reporting ε Unit).Always () := fun _ => ⟨_,rfl⟩

theorem Always.eq_of_gives {b : α} (always : work.Always a) (gives : work.Gives b) : a = b := by
  obtain ⟨j,j',ran⟩ := gives
  obtain ⟨_,ran'⟩ := always j
  cases ran.symm.trans ran'
  rfl

theorem Always.gives (always : work.Always a) : work.Gives a :=
  let ⟨j',ran⟩ := always {}
  ⟨{},j',ran⟩

end Reporting

theorem exists_of_forall₂ {R : α → β → Prop} {as : List α} {bs : List β} (related : List.Forall₂ R as bs)
    (mem : a ∈ as) : ∃ b ∈ bs, R a b := by
  induction related with
  | nil => cases mem
  | @cons a' b as bs first _ ih =>
    grind

theorem filterMap_of_mapM {f : α → Option β} : ∀ {as : List α} {bs : List β}, as.mapM f = some bs →
    bs.length = as.length ∧ as.filterMap f = bs
  | [], _, same => by
    cases same
    exact ⟨rfl,rfl⟩
  | a :: as, _, same => by
    rw [List.mapM_cons] at same
    obtain ⟨b,first,same⟩ := Option.bind_eq_some_iff.mp same
    obtain ⟨bs,others,same⟩ := Option.bind_eq_some_iff.mp same
    cases same
    obtain ⟨length,rfl⟩ := filterMap_of_mapM others
    exact ⟨congrArg (· + 1) length,List.filterMap_cons_some first⟩

end Shading
