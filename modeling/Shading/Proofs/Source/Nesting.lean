import Shading.Proofs.Source.Directives

/-! What a file does to the conditionals that are open around it. As many are open after a file as before it, but
a file can end one of its includer and open its own, or go on with another branch. One that stands alone leaves
those of its includer as they are. -/
namespace Shading.Source

/-- With `depth` conditionals open, none is closed or continued that was open before them. -/
def contained : (depth : Nat) → List Conditioning → Bool
  | _, [] => true
  | depth, .ifdef :: cs | depth, .ifndef :: cs | depth, .if_ :: cs => contained (depth + 1) cs
  | 0, _ => false
  | depth + 1, .elif :: cs | depth + 1, .else_ :: cs => contained (depth + 1) cs
  | depth + 1, .endif :: cs => contained depth cs

def StandsAlone (text : List Char) : Prop := contained 0 ((logicalLines text).filterMap LogicalLine.mark?) = true

instance (text : List Char) : Decidable (StandsAlone text) := inferInstanceAs (Decidable (_ = true))

def State.Holds (outer : List Conditional) (depth : Nat) (s : State) : Prop :=
  ∃ inner, s.conditionals = inner ++ outer ∧ inner.length = depth

section Steps

variable {lib : Library} {nested : Nested} {index : Nat} {file : String} {path : Option String}
  {outer : List Conditional} {s s' : State} {depth : Nat} {site : Site}

variable {text : List Char}

theorem Conditioning.run_holds {c : Conditioning} {cs : List Conditioning}
    (within : contained depth (c :: cs) = true) (holds : s.Holds outer depth)
    (ran : (c.run site text).from s = (.ok (), s')) :
    ∃ depth', contained depth' cs = true ∧ s'.Holds outer depth' := by
  obtain ⟨inner,around,rfl⟩ := holds
  obtain ⟨cs',rfl,moves⟩ := run_ok ran
  cases c with
  | ifdef | ifndef | if_ =>
    obtain ⟨d,rfl⟩ := moves
    exact ⟨_,within,d :: inner,congrArg (d :: ·) around,rfl⟩
  | elif | else_ =>
    obtain ⟨d,e,rest,top,rfl⟩ := moves
    cases inner with
    | nil => cases within
    | cons _ inner =>
      cases around.symm.trans top
      exact ⟨_,within,e :: inner,rfl,rfl⟩
  | endif =>
    obtain ⟨d,top⟩ := moves
    cases inner with
    | nil => cases within
    | cons _ inner =>
      cases around.symm.trans top
      exact ⟨_,within,inner,rfl,rfl⟩

theorem includeHeader_ok (ran : (includeHeader lib nested site text).from s = (.ok (), s')) :
    ∃ log, s' = { s with log := log } ∨
      ∃ enter quoted name h, nested = some enter ∧ (lib.find quoted name site.file).found = some h ∧
        (enter h).from { s with log := log } = (.ok (), s') := by
  unfold includeHeader at ran
  split at ran
  · cases ran
  · split at ran
    · simp only [Expanding.from_modify_bind] at ran
      split at ran
      · rw [Expanding.from_get_bind] at ran
        split at ran
        · exact ⟨_,.inr ⟨_,_,_,_,rfl,‹_›,ran⟩⟩
        · cases ran
          exact ⟨_,.inl rfl⟩
      · cases ran
    · cases ran

/-- Headers leave the conditionals as they are. -/
def Nested.Keeps (lib : Library) (nested : Nested) : Prop :=
  ∀ enter, nested = some enter → ∀ quoted name asking h, (lib.find quoted name asking).found = some h →
    ∀ s s', (enter h).from s = (.ok (), s') → s'.conditionals = s.conditionals

theorem processLine_keeps {l : LogicalLine} (keeps : nested.Keeps lib) (unmarked : l.mark? = none)
    (ran : (processLine lib nested index file path l).from s = (.ok (), s')) : s'.conditionals = s.conditionals := by
  cases active : s.isActive with
  | false =>
    cases (processLine_skipped unmarked active).symm.trans ran
    rfl
  | true =>
    rcases @processLine_active lib nested index file path l s unmarked active with same | same | kept
    · rw [same] at ran
      obtain ⟨log,rfl | ⟨enter,quoted,name,h,entered,found,ran⟩⟩ := includeHeader_ok ran
      · rfl
      · have kept := keeps enter entered quoted name _ h found _ _ ran
        exact kept
    · rw [same] at ran
      cases ran
      rfl
    · rw [ran] at kept
      exact kept.conditionals

theorem processLines_holds {ls : List LogicalLine} (keeps : nested.Keeps lib)
    (within : contained depth (ls.filterMap LogicalLine.mark?) = true) (holds : s.Holds outer depth)
    (ran : (ls.forM (processLine lib nested index file path)).from s = (.ok (), s')) :
    ∃ depth', s'.Holds outer depth' := by
  induction ls generalizing s depth with
  | nil =>
    cases ran
    exact ⟨depth,holds⟩
  | cons l ls ih =>
    obtain ⟨⟨⟩,t,first,rest⟩ := Expanding.from_bind_eq_ok.mp ran
    cases marked : l.mark? with
    | none =>
      rw [List.filterMap_cons_none marked] at within
      refine ih within ?_ rest
      rwa [State.Holds,processLine_keeps keeps marked first]
    | some c =>
      rw [List.filterMap_cons_some marked] at within
      rw [processLine_mark marked] at first
      obtain ⟨depth,within,holds⟩ := Conditioning.run_holds within holds first
      exact ih within holds rest

theorem processText_ok (ran : (processText lib nested file path text).from s = (.ok (), s')) :
    ((logicalLines text).forM (processLine lib nested (s.map.indexOf file) file path)).from
        { s with map := s.map.withFile file } = (.ok (), s') ∧
      s'.conditionals.length = s.conditionals.length := by
  obtain ⟨_,_,entered,ran⟩ := Expanding.from_bind_eq_ok.mp ran
  cases entered
  rw [Expanding.from_get_bind] at ran
  obtain ⟨⟨⟩,t,lines,ran⟩ := Expanding.from_bind_eq_ok.mp ran
  rw [Expanding.from_get_bind] at ran
  split at ran
  · cases ran
  · cases ran
    exact ⟨lines,not_not.mp ‹_›⟩

theorem processText_keeps (keeps : nested.Keeps lib) (alone : StandsAlone text)
    (ran : (processText lib nested file path text).from s = (.ok (), s')) :
    s'.conditionals = s.conditionals := by
  obtain ⟨lines,length⟩ := processText_ok ran
  obtain ⟨depth,inner,same,-⟩ := processLines_holds keeps alone ⟨[],rfl,rfl⟩ lines
  have none : inner.length = 0 := by simpa [same] using length
  simpa [List.length_eq_zero_iff.mp none] using same

theorem expandFile_keeps
    (headers : ∀ quoted name asking h, (lib.find quoted name asking).found = some h → StandsAlone h.text)
    (levels : Nat) (alone : StandsAlone text)
    (ran : (expandFile lib levels file path text).from s = (.ok (), s')) :
    s'.conditionals = s.conditionals := by
  induction levels generalizing file path text s s' with
  | zero => exact processText_keeps (fun _ none => by cases none) alone ran
  | succ levels ih =>
    refine processText_keeps (fun enter entered quoted name asking h found t t' ran => ?_) alone ran
    cases entered
    exact ih (headers quoted name asking h found) ran

end Steps

theorem exists_processText (lib : Library) (levels : Nat) : ∃ nested, ∀ file path text,
    expandFile lib levels file path text = processText lib nested file path text := by
  cases levels with
  | zero => exact ⟨_,fun _ _ _ => rfl⟩
  | succ levels => exact ⟨_,fun _ _ _ => rfl⟩

/-- As many conditionals are open after a file as before it. They are the same ones if the file and all headers
stand alone. -/
theorem expandFile_conditionals (lib : Library) (levels : Nat) (file : String) (path : Option String)
    (text : List Char) (s s' : State) (ran : (expandFile lib levels file path text).from s = (.ok (), s')) :
    s'.conditionals.length = s.conditionals.length ∧
    (StandsAlone text →
      (∀ quoted name asking h, (lib.find quoted name asking).found = some h → StandsAlone h.text) →
      s'.conditionals = s.conditionals) := by
  refine ⟨?_,fun alone headers => expandFile_keeps headers levels alone ran⟩
  obtain ⟨nested,same⟩ := exists_processText lib levels
  rw [same] at ran
  exact (processText_ok ran).2

def chosen : State := { conditionals := [⟨true, true, true, false⟩] }

/-- A file with a conditional of its own leaves that one as it is. -/
theorem alone_in_chosen : ∃ s', (expandFile ({} : HeaderStore).library 1 "h" (some "h")
    "#ifdef A\n#else\n#endif".toList).from chosen = (.ok (), s') ∧ s'.conditionals = chosen.conditionals := by
  have ran : (expandFile ({} : HeaderStore).library 1 "h" (some "h") "#ifdef A\n#else\n#endif".toList).from chosen =
      (.ok (), { chosen with map := ⟨["h"],#[],#[]⟩ }) := by
    cbv
  refine ⟨_,ran,(expandFile_conditionals _ _ _ _ _ _ _ ran).2 (by decide) fun quoted name asking h found => ?_⟩
  cases quoted <;> cases found

/-- One that goes on with another branch changes the conditional of its includer. -/
theorem branch_continued : ∃ s', (expandFile ({} : HeaderStore).library 1 "h" (some "h") "#else".toList).from chosen =
    (.ok (), s') ∧ s'.conditionals = [⟨false, true, true, true⟩] := by
  refine ⟨{ chosen with conditionals := [⟨false,true,true,true⟩], map := ⟨["h"],#[],#[]⟩ },?_,rfl⟩
  cbv

end Shading.Source
