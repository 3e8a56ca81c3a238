import Mathlib
import Shading.Source.Expansion

/-! What the lines of a file do to the state of an expansion. A directive that is not about conditionals leaves
those that are open and the result so far as they are. -/
namespace Shading.Source
open List Text

def Expanding.from {α : Type} (work : Expanding α) (s : State) : Except Fault α × State := work.run.run s

def State.Tidy (s : State) : Prop := ∀ d ∈ s.macros, '\n' ∉ d.2

theorem State.Tidy.erase {s : State} (tidy : s.Tidy) (name : String) : ∀ d ∈ s.macros.erase name, '\n' ∉ d.2 :=
  fun d mem => tidy d (mem_of_mem_filter mem)

theorem State.Tidy.insert {s : State} (tidy : s.Tidy) (name : String) {body : List Char} (one : '\n' ∉ body) :
    ∀ d ∈ s.macros.insert name body, '\n' ∉ d.2 :=
  forall_mem_cons.mpr ⟨one,tidy.erase name⟩

namespace Expanding

variable {α β : Type} {s : State}

@[simp] theorem from_pure (a : α) : (pure a : Expanding α).from s = (.ok a, s) := rfl

@[simp] theorem from_get_bind (f : State → Expanding β) : (get >>= f).from s = (f s).from s := rfl

@[simp] theorem from_modify_bind (f : State → State) (g : PUnit → Expanding β) :
    (modify f >>= g).from s = (g ()).from (f s) := rfl

theorem from_bind (x : Expanding α) (f : α → Expanding β) : (x >>= f).from s =
    match x.from s with
    | (.ok a, t) => (f a).from t
    | (.error e, t) => (.error e, t) := by
  simp only [Expanding.from,ExceptT.run_bind,StateT.run_bind]
  rcases x.run.run s with ⟨_ | _,_⟩ <;> rfl

theorem from_bind_eq_ok {x : Expanding α} {f : α → Expanding β} {b : β} {t : State} :
    (x >>= f).from s = (.ok b, t) ↔ ∃ a u, x.from s = (.ok a, u) ∧ (f a).from u = (.ok b, t) := by
  rw [from_bind]
  rcases x.from s with ⟨_ | _,_⟩ <;> simp

end Expanding

/-- Work with the line `l` left the conditionals and the result as they were. -/
structure State.Kept (l : List Char) (s t : State) : Prop where
  conditionals : t.conditionals = s.conditionals
  text : t.text = s.text
  map : t.map = s.map
  tidy : '\n' ∉ l → s.Tidy → t.Tidy

namespace State.Kept

variable {l : List Char} {s t u : State}

theorem refl (l : List Char) (s : State) : Kept l s s := ⟨rfl,rfl,rfl,fun _ => id⟩

theorem trans (first : Kept l s t) (second : Kept l t u) : Kept l s u where
  conditionals := second.conditionals.trans first.conditionals
  text := second.text.trans first.text
  map := second.map.trans first.map
  tidy one tidy := second.tidy one (first.tidy one tidy)

theorem mono {l' : List Char} (sub : l ⊆ l') (kept : Kept l s t) : Kept l' s t :=
  { kept with tidy := fun one => kept.tidy fun mem => one (sub mem) }

end State.Kept

namespace Expanding

variable {α β : Type} {l : List Char}

def Plain (l : List Char) (work : Expanding α) : Prop := ∀ s : State, s.Kept l (work.from s).2

namespace Plain

variable {f : α → Expanding β}

theorem fail_bind {site : Site} {c : Cause} : Plain l (site.fail c >>= f) := State.Kept.refl l

theorem bind {x : Expanding α} (first : Plain l x) (second : ∀ a, Plain l (f a)) : Plain l (x >>= f) := by
  intro s
  have kept := first s
  rw [from_bind]
  generalize x.from s = ran at kept ⊢
  rcases ran with ⟨_ | a,t⟩
  · exact kept
  · exact kept.trans (second a t)

theorem ite {c : Prop} [Decidable c] {x y : Expanding α} (yes : Plain l x) (no : Plain l y) :
    Plain l (if c then x else y) := by
  split
  · exact yes
  · exact no

end Plain

end Expanding

theorem trim_subset (cs : List Char) : trim cs ⊆ cs := fun c mem => by
  have mem := (dropWhile_suffix _).subset (mem_reverse.mp mem)
  exact (dropWhile_suffix _).subset (mem_reverse.mp mem)

section Orders

variable (site : Site) (text : List Char)

open Expanding

theorem setVersion_plain : Plain text (setVersion site text) := by
  intro s
  simp only [setVersion,from_get_bind]
  split
  · exact .refl _ _
  · split
    · split
      · exact .refl _ _
      · rename_i es _
        refine ⟨rfl,rfl,rfl,fun _ tidy => ?_⟩
        cases es with
        | true => exact tidy.insert _ (by decide)
        | false => exact tidy.erase _
    · exact .refl _ _

theorem addExtension_plain : Plain text (addExtension site text) := by
  unfold addExtension
  split
  · refine .ite .fail_bind (.ite (.ite .fail_bind ?_) fun _ => ⟨rfl,rfl,rfl,fun _ => id⟩)
    exact .bind (fun _ => ⟨rfl,rfl,rfl,fun _ => id⟩) fun _ _ => ⟨rfl,rfl,rfl,fun _ => id⟩
  · exact State.Kept.refl _

theorem define_plain : Plain text (define site text) := by
  refine .ite .fail_bind (.ite .fail_bind (.ite .fail_bind fun s => ?_))
  simp only [from_get_bind]
  split
  · split <;> exact .refl _ _
  · exact ⟨rfl,rfl,rfl,fun one tidy => tidy.insert _ fun mem => one ((dropWhile_suffix _).subset (trim_subset _ mem))⟩

theorem undefine_plain : Plain text (undefine site text) :=
  .ite .fail_bind fun _ => ⟨rfl,rfl,rfl,fun _ tidy => tidy.erase _⟩

end Orders

def LogicalLine.directive? (l : LogicalLine) : Option (List Char) :=
  match trim l.text with
  | '#' :: text => some (trim text)
  | _ => none

def directiveName (text : List Char) : String := String.ofList (text.takeWhile isWordChar)

def LogicalLine.argument (l : LogicalLine) : List Char :=
  trim ((l.directive?.getD []).dropWhile isWordChar)

def LogicalLine.mark? (l : LogicalLine) : Option Conditioning :=
  l.directive?.bind fun text => Conditioning.ofName? (directiveName text)

theorem LogicalLine.argument_subset (l : LogicalLine) : l.argument ⊆ l.text := by
  refine Subset.trans (trim_subset _) (Subset.trans (dropWhile_suffix _).subset ?_)
  unfold LogicalLine.directive?
  split
  · rename_i text isDirective
    have tail : text ⊆ l.text := fun c mem => trim_subset _ (isDirective ▸ mem_cons_of_mem _ mem)
    exact Subset.trans (trim_subset _) tail
  · exact nil_subset _

section Lines

variable {lib : Library} {nested : Nested} {index : Nat} {file : String} {path : Option String} {l : LogicalLine}
  {s : State}

theorem processLine_directive {text : List Char} (isDirective : l.directive? = some text) :
    processLine lib nested index file path l = directive lib nested ⟨file, l.number, path⟩ text := by
  unfold LogicalLine.directive? at isDirective
  unfold processLine
  split at isDirective
  · cases isDirective
    simp [*]
  · cases isDirective

theorem processLine_text (isText : l.directive? = none) :
    processLine lib nested index file path l = pure () ∨ processLine lib nested index file path l =
      (do if (← get).isActive then emitLine index ⟨file, l.number, path⟩ l.text) := by
  unfold LogicalLine.directive? at isText
  unfold processLine
  split
  · simp [*] at isText
  · exact .inl rfl
  · exact .inr rfl

theorem processLine_mark {c : Conditioning} (marked : l.mark? = some c) :
    processLine lib nested index file path l = c.run ⟨file, l.number, path⟩ l.argument := by
  obtain ⟨text,isDirective,marked⟩ := Option.bind_eq_some_iff.mp marked
  rw [processLine_directive isDirective,LogicalLine.argument,isDirective]
  simp only [directive,show Conditioning.ofName? (String.ofList (text.takeWhile isWordChar)) = some c from marked]
  rfl

theorem processLine_skipped (unmarked : l.mark? = none) (skipped : s.isActive = false) :
    (processLine lib nested index file path l).from s = (.ok (), s) := by
  cases isDirective : l.directive? with
  | none =>
    rcases processLine_text isDirective with same | same
    · rw [same]
      rfl
    · simp [same,skipped]
  | some text =>
    rw [LogicalLine.mark?,isDirective,Option.bind_some,directiveName] at unmarked
    simp [processLine_directive isDirective,directive,unmarked,skipped]

/-- A line that is not skipped and is not about conditionals puts in a header, or it is put into the result, or
it leaves both the conditionals and the result as they are. -/
theorem processLine_active (unmarked : l.mark? = none) (active : s.isActive = true) :
    (processLine lib nested index file path l).from s =
      (includeHeader lib nested ⟨file, l.number, path⟩ l.argument).from s ∨
    (processLine lib nested index file path l).from s = (emitLine index ⟨file, l.number, path⟩ l.text).from s ∨
    s.Kept l.text ((processLine lib nested index file path l).from s).2 := by
  cases isDirective : l.directive? with
  | none =>
    rcases processLine_text isDirective with same | same
    · exact .inr (.inr (by rw [same]; exact .refl _ _))
    · exact .inr (.inl (by simp [same,active]))
  | some text =>
    rw [LogicalLine.mark?,isDirective,Option.bind_some,directiveName] at unmarked
    have sub := l.argument_subset
    rw [LogicalLine.argument,isDirective] at sub
    simp only [processLine_directive isDirective,LogicalLine.argument,isDirective]
    simp only [directive,unmarked,Option.getD_some]
    simp only [Option.getD_some] at sub
    generalize trim (text.dropWhile isWordChar) = rest at sub ⊢
    generalize String.ofList (text.takeWhile isWordChar) = name
    have on (x : Expanding Unit) : (do if (← get).isActive then x : Expanding Unit).from s = x.from s := by
      simp [active]
    split
    case h_7 => exact .inl (on _)
    all_goals
      refine .inr (.inr ?_)
      rw [on]
      refine State.Kept.mono sub ?_
    case h_1 | h_2 => exact .refl _ _
    case h_3 => exact setVersion_plain _ _ s
    case h_4 => exact addExtension_plain _ _ s
    case h_5 => exact define_plain _ _ s
    case h_6 => exact undefine_plain _ _ s
    case h_8 =>
      split
      · split
        · exact ⟨rfl,rfl,rfl,fun _ => id⟩
        · exact .refl _ _
      · exact .refl _ _
    case h_9 | h_10 => exact .refl _ _

end Lines

namespace Conditioning

/-- What the directive does to the conditionals that are open. -/
def Moves (cs cs' : List Conditional) : Conditioning → Prop
  | .ifdef | .ifndef | .if_ => ∃ c, cs' = c :: cs
  | .elif | .else_ => ∃ c c' outer, cs = c :: outer ∧ cs' = c' :: outer
  | .endif => ∃ c, cs = c :: cs'

section Runs

variable {c : Conditioning} {site : Site} {text : List Char} {s s' : State}

theorem defines_ok {name : String} {v : Bool} (ran : (defines site name text).from s = (.ok v, s')) : s' = s := by
  simp only [defines] at ran
  split at ran
  · cases ran
  · cases ran
    rfl

theorem evaluateHere_ok {v : Bool} (ran : (evaluateHere site text).from s = (.ok v, s')) : s' = s := by
  rw [evaluateHere,Expanding.from_get_bind] at ran
  split at ran
  · cases ran
    rfl
  · cases ran

theorem run_ok (ran : (c.run site text).from s = (.ok (), s')) :
    ∃ cs, s' = { s with conditionals := cs } ∧ c.Moves s.conditionals cs := by
  cases c with
  | ifdef | ifndef =>
    obtain ⟨v,t,tested,ran⟩ := Expanding.from_bind_eq_ok.mp ran
    cases defines_ok tested
    cases ran
    exact ⟨_,rfl,_,rfl⟩
  | if_ =>
    rw [run,Expanding.from_get_bind] at ran
    split at ran
    · obtain ⟨v,t,tested,ran⟩ := Expanding.from_bind_eq_ok.mp ran
      cases evaluateHere_ok tested
      cases ran
      exact ⟨_,rfl,_,rfl⟩
    · cases ran
      exact ⟨_,rfl,_,rfl⟩
  | elif =>
    simp only [run,Expanding.from_get_bind] at ran
    split at ran
    · cases ran
    · rename_i c outer top
      split at ran
      · cases ran
      · split at ran
        · obtain ⟨v,t,tested,ran⟩ := Expanding.from_bind_eq_ok.mp ran
          cases evaluateHere_ok tested
          cases ran
          exact ⟨_,rfl,_,_,_,top,rfl⟩
        · cases ran
          exact ⟨_,rfl,_,_,_,top,rfl⟩
  | else_ =>
    rw [run,Expanding.from_get_bind] at ran
    split at ran
    · cases ran
    · rename_i c outer top
      split at ran
      · cases ran
      · cases ran
        exact ⟨_,rfl,_,_,_,top,rfl⟩
  | endif =>
    rw [run,Expanding.from_get_bind] at ran
    split at ran
    · cases ran
    · cases ran
      exact ⟨_,rfl,_,‹_›⟩

end Runs

end Conditioning

end Shading.Source
