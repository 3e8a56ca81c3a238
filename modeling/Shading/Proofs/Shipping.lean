import Shading.Proofs.Emission.Uniforms

/-! What a compilation leaves behind. One that fails has said why, and nothing of it reaches the sink. If
the artifact has no bytes, or the sink does not take them, the failure is not reported. -/
namespace Shading
open Reporting Emission

namespace Reporting

variable {ε δ α β : Type} {a : α} {c : Prop} {f : ε → δ} {next : α → Reporting ε β}
  {rest : PUnit → Reporting ε β}

/-- Whenever the work fails, its error and what was said by then are related in this way. -/
def Fails (work : Reporting ε α) (P : ε → Journal → Prop) : Prop :=
  ∀ j e j', work.run.run j = (.error e, j') → P e j'

namespace Fails

variable {work : Reporting ε α} {P : ε → Journal → Prop}

theorem of_pure : (pure a : Reporting ε α).Fails P := by
  intro j e j' ran
  cases ran

theorem bind (first : work.Fails P) (second : ∀ a, (next a).Fails P) : (work >>= next).Fails P := by
  intro j e j' ran
  rw [ExceptT.run_bind,StateT.run_bind] at ran
  cases ran₁ : work.run.run j with
  | mk outcome t =>
    rw [ran₁] at ran
    cases outcome with
    | error e' =>
      cases ran
      exact first j e t ran₁
    | ok a => exact second a t e j' ran

theorem guard [Decidable c] {work : Reporting ε PUnit} (first : work.Fails P)
    (second : (rest ⟨⟩).Fails P) : (if c then work >>= rest else rest ⟨⟩).Fails P := by
  split
  · exact .bind first fun _ => second
  · exact second

theorem mapError {Q : δ → Journal → Prop} (h : work.Fails fun e j => Q (f e) j) :
    (Reporting.mapError f work).Fails Q := by
  intro j e j' ran
  obtain ⟨x,first,failed⟩ := run_mapError_eq.mp ran
  obtain ⟨e',rfl,rfl⟩ := Except.mapError_eq_error.mp failed
  exact h j e' j' first

theorem of_modify {f : Journal → Journal} : (modify f : Reporting ε PUnit).Fails P := by
  intro j e j' ran
  cases ran

theorem trivial (h : ∀ e j, P e j) : work.Fails P := fun _ e j' _ => h e j'

end Fails

def Quiet (work : Reporting ε α) : Prop :=
  ∀ j a j', work.run.run j = (.ok a, j') → j'.log.hasErrors = j.log.hasErrors

namespace Quiet

variable {work : Reporting ε α}

theorem of_unsaid (unsaid : ∀ j, (work.run.run j).2.log = j.log) : work.Quiet := by
  intro j a j' ran
  rw [← unsaid j,ran]

theorem of_pure : (pure a : Reporting ε α).Quiet := .of_unsaid fun _ => rfl

theorem of_throw {e : ε} : (throw e : Reporting ε α).Quiet := .of_unsaid fun _ => rfl

theorem of_note {level : TraceLevel} {text : String} : (note level text : Reporting ε Unit).Quiet :=
  .of_unsaid fun _ => rfl

theorem of_reportAll {ds : Log} (none : ds.hasErrors = false) : (reportAll ds : Reporting ε Unit).Quiet := by
  intro j a j' ran
  cases ran
  simp only [Log.hasErrors,List.any_append] at none ⊢
  rw [none,Bool.or_false]

theorem bind (first : work.Quiet) (second : ∀ a, work.Gives a → (next a).Quiet) :
    (work >>= next).Quiet := by
  intro j b j' ran
  obtain ⟨a,t,ran₁,ran₂⟩ := exists_of_run_bind ran
  exact (second a ⟨j,t,ran₁⟩ t b j' ran₂).trans (first j a t ran₁)

theorem mapError (h : work.Quiet) : (Reporting.mapError f work).Quiet := by
  intro j a j' ran
  exact h j a j' (run_mapError_eq_ok.mp ran)

theorem of_fails (never : ∀ a, ¬work.Gives a) : work.Quiet := fun j a j' ran => absurd ⟨j,j',ran⟩ (never a)

theorem guard [Decidable c] {work : Reporting ε PUnit} (first : work.Quiet)
    (second : (rest ⟨⟩).Quiet) : (if c then work >>= rest else rest ⟨⟩).Quiet := by
  split
  · exact .bind first fun _ _ => second
  · exact second

end Quiet

end Reporting

theorem link_fails (units : List Typed.Checked) : (link units).Fails fun _ j => j.log.hasErrors = true := by
  unfold link
  split
  · intro j e j' ran
    cases ran
    simp [Log.hasErrors,Diagnostic.error,Severity.isError]
  · split
    · intro j e j' ran
      cases ran
      simp [Log.hasErrors,Diagnostic.error,Severity.isError]
    · exact .bind .of_modify fun _ => .of_pure

theorem link_quiet (units : List Typed.Checked) : (link units).Quiet := by
  grind [link,Quiet.of_fails,Gives.of_bind,not_gives_throw,Quiet.bind,Quiet.of_note,Quiet.of_pure]

namespace Linked

theorem assignRegisters_quiet (next : Nat) (gs : List Typed.Global) : (assignRegisters next gs).Quiet := by
  induction gs generalizing next with
  | nil => exact .of_pure
  | cons g gs ih =>
    unfold assignRegisters
    split
    · refine .guard .of_throw (.guard .of_note (.guard .of_throw ?_))
      exact .bind .of_note fun _ _ => .bind (ih _) fun _ _ => .of_pure
    · exact .bind (ih _) fun _ _ => .of_pure

theorem reflect_quiet (p : Typed.Program) : (reflect p).Quiet :=
  .bind (assignRegisters_quiet 0 _) fun _ _ => .bind .of_note fun _ _ => .of_pure

end Linked

theorem Lowering.lower_quiet (p : Typed.Program) : (lower p).Quiet := by
  unfold lower
  split
  · exact .of_throw
  · split
    · exact .of_throw
    · exact .bind .of_note fun _ _ => .of_pure

theorem Emission.emit_quiet (m : Bytecode.Module) (version : Nat) (es : Bool) : (emit m version es).Quiet :=
  .bind (.of_unsaid fun _ => rfl) fun _ _ => .bind (.of_unsaid fun _ => rfl) fun _ _ =>
    .bind .of_note fun _ _ => .of_pure

theorem Log.hasErrors_eq_false {log : Log} (none : log.firstError? = none) : log.hasErrors = false := by
  rw [Log.hasErrors,List.any_eq_false]
  exact List.find?_eq_none.mp none

theorem WrittenUnit.check_quiet (u : WrittenUnit) : u.check.Quiet := by
  cases first : (Typed.checkUnit u).log.firstError? with
  | none =>
    refine .bind (.of_reportAll (Log.hasErrors_eq_false first)) fun _ _ => ?_
    rw [first]
    exact .bind .of_note fun _ _ => .of_pure
  | some d =>
    refine .of_fails fun c given => ?_
    obtain ⟨_,-,given⟩ := given.of_bind
    rw [first] at given
    obtain ⟨_,-,failed⟩ := given.of_bind
    exact not_gives_throw failed

theorem StageSource.check_quiet (u : StageSource) (lib : Source.Library)
    (none : (Source.run lib u.preamble u.text u.file).2.hasErrors = false) : (u.check lib).Quiet := by
  have expanded : (u.expand lib).Quiet := by
    unfold expand
    refine .bind (.of_reportAll none) fun _ _ => ?_
    split
    · exact .of_throw
    · exact .bind .of_note fun _ _ => .of_pure
  refine .bind (.bind expanded fun e _ => ?_) fun w _ => w.check_quiet
  split
  · exact .of_throw
  · exact .bind .of_note fun _ _ => .of_pure

namespace Bytecode

variable {source : String} {α : Type}

theorem OptimizeError.isError_severity (e : OptimizeError) : e.severity.isError = true := by
  cases e <;> rfl

theorem fatal_fails (source : String) (e : OptimizeError) :
    (fatal source e : Reporting OptimizeError α).Fails fun _ j => j.log.hasErrors = true := by
  intro j e' j' ran
  cases ran
  simp [Log.hasErrors,OptimizeError.isError_severity]

theorem runPasses_fails (source : String) (ps : List Pass) (code : List Instruction) :
    (runPasses source ps code).Fails fun _ j => j.log.hasErrors = true := by
  induction ps generalizing code with
  | nil => exact .of_pure
  | cons p ps ih =>
    refine .bind .of_modify fun _ => .bind .of_modify fun _ => ?_
    split
    · exact fatal_fails source _
    · split
      · exact .bind .of_modify fun _ => ih _
      · exact ih _

theorem optimize_fails (m : Module) (full : Bool) (source : String) :
    (optimize m full source).Fails fun _ j => j.log.hasErrors = true := by
  unfold optimize
  split
  · exact fatal_fails source _
  · refine .bind (runPasses_fails source _ _) fun optimized => ?_
    refine .guard (fatal_fails source _) ?_
    split
    · exact fatal_fails source _
    · exact .bind .of_modify fun _ => .bind .of_modify fun _ => .of_pure

theorem not_gives_fatal {e : OptimizeError} (a : α) :
    ¬(fatal source e : Reporting OptimizeError α).Gives a := by
  intro given
  obtain ⟨_,-,failed⟩ := given.of_bind
  exact not_gives_throw failed

theorem runPasses_quiet (source : String) (ps : List Pass) (code : List Instruction) :
    (runPasses source ps code).Quiet := by
  induction ps generalizing code with
  | nil => exact .of_pure
  | cons p ps ih =>
    refine .bind .of_note fun _ _ => .bind (.of_reportAll rfl) fun _ _ => ?_
    split
    · exact .of_fails not_gives_fatal
    · split
      · exact .bind .of_note fun _ _ => ih _
      · exact ih _

theorem optimize_quiet {m : Module} {full : Bool}
    (none : ∀ m', (optimize m full source).Gives m' → m'.findings = []) :
    (optimize m full source).Quiet := by
  intro j m' j' ran
  have found := none m' ⟨j,j',ran⟩
  unfold optimize at ran
  split at ran
  · exact absurd ⟨j,j',ran⟩ (not_gives_fatal m')
  · rename_i h code decoded
    obtain ⟨optimized,t,passed,ran⟩ := exists_of_run_bind ran
    rw [← runPasses_quiet _ _ _ j optimized t passed]
    dsimp only at ran
    by_cases changed : decorations optimized ≠ decorations code
    · rw [if_pos changed] at ran
      obtain ⟨_,t',failed,-⟩ := exists_of_run_bind ran
      exact absurd ⟨t,t',failed⟩ (not_gives_fatal _)
    · rw [if_neg changed] at ran
      split at ran
      · exact absurd ⟨t,j',ran⟩ (not_gives_fatal m')
      · obtain ⟨_,t',told,ran⟩ := exists_of_run_bind ran
        obtain ⟨_,t'',noted,ended⟩ := exists_of_run_bind ran
        cases ended
        cases noted
        cases told
        simp [found]

end Bytecode

/-- Whether no error is reported while directives are carried out. -/
def CompileOptions.ExpandsQuietly (o : CompileOptions) (lib : Source.Library) (source : String) : Prop :=
  (Source.run lib (StageSource.withDefines { stage := o.stage, file := o.file, text := source } o.defines).preamble
    source o.file).2.hasErrors = false

section Compilation

variable (o : CompileOptions) (lib : Source.Library) (source : String)

/-- What can be said of an error that ends one of the stages: it is not about bytes, and if others need not
report it, it has been reported. -/
def Owned (e : CompileError) (j : Journal) : Prop :=
  (∀ f, e ≠ .artifact f) ∧ (e.isReported = true → j.log.hasErrors = true)

theorem lowerSource_fails : (lowerSource o lib source).Fails Owned := by
  have others {α ε : Type} {work : Reporting ε α} {f : ε → CompileError}
      (other : ∀ e, (∀ f', f e ≠ .artifact f') ∧ (f e).isReported = false) :
      (mapError f work).Fails Owned :=
    .mapError (.trivial fun e j => ⟨(other e).1,by simp [(other e).2]⟩)
  refine .bind ?_ fun _ => .bind .of_modify fun _ => .bind (others fun e => ?_) fun c =>
    .bind (.mapError fun j e j' ran => ⟨nofun,fun _ => link_fails _ j e j' ran⟩) fun l =>
      .bind (others fun e => ?_) fun r => .bind (others fun e => ?_) fun m => .of_pure
  · intro j e j' ran
    cases valid : o.check with
    | ok _ =>
      rw [valid] at ran
      cases ran
    | error f =>
      rw [valid] at ran
      cases ran
      exact ⟨nofun,nofun⟩
  all_goals exact ⟨nofun,rfl⟩

theorem compileStages_fails : (compileStages o lib source).Fails Owned := by
  refine .bind (lowerSource_fails o lib source) fun r =>
    .bind (.mapError fun j e j' ran => ⟨nofun,fun _ => Bytecode.optimize_fails _ _ _ j e j' ran⟩) fun m =>
      .bind (.mapError (.trivial fun e j => ⟨nofun,nofun⟩)) fun text => .bind .of_modify fun _ => .of_pure

theorem tellFailure_tells (e : CompileError) (j : Journal) :
    ∃ j', (tellFailure o e).run.run j = (.ok (), j') ∧
      ((e.isReported = true → j.log.hasErrors = true) → j'.log.hasErrors = true) := by
  unfold tellFailure
  cases reported : e.isReported with
  | true => exact ⟨_,rfl,fun told => told rfl⟩
  | false =>
    refine ⟨_,rfl,fun _ => ?_⟩
    simp [Log.hasErrors,Diagnostic.error,Severity.isError]

theorem compile_fails : (compile o lib source).Fails fun e j =>
    (∀ f, e ≠ .artifact f) ∧ j.log.hasErrors = true := by
  intro j e j' ran
  unfold compile at ran
  rw [ExceptT.run_tryCatch,StateT.run_bind] at ran
  cases stages : (compileStages o lib source).run.run j with
  | mk outcome t =>
    rw [stages] at ran
    cases outcome with
    | ok a => cases ran
    | error e' =>
      obtain ⟨other,told⟩ := compileStages_fails o lib source j e' t stages
      obtain ⟨t',ended,tells⟩ := tellFailure_tells o e' t
      have failed : (tellFailure o e' >>= fun _ => throw e').run.run t =
        ((.error e, j') : Except CompileError Artifact × Journal) := ran
      rw [run_bind_of_ok ended] at failed
      cases failed
      exact ⟨other,tells told⟩

variable {o lib source}

theorem lowerSource_quiet (expanded : o.ExpandsQuietly lib source) : (lowerSource o lib source).Quiet := by
  refine .bind ?_ fun _ _ => .bind .of_note fun _ _ => .bind (.mapError ?_) fun c _ =>
    .bind (.mapError (link_quiet _)) fun l _ => .bind (.mapError (Linked.reflect_quiet _)) fun r _ =>
      .bind (.mapError (Lowering.lower_quiet _)) fun m _ => .of_pure
  · cases valid : o.check with
    | ok _ => exact .of_unsaid fun _ => rfl
    | error f => exact .of_unsaid fun _ => rfl
  · exact StageSource.check_quiet _ lib expanded

theorem compile_quiet (expanded : o.ExpandsQuietly lib source)
    (room : o.optimize = true → ∀ us m, (lowerSource o lib source).Gives (us, m) → m.HasRoom) :
    (compile o lib source).Quiet := by
  have stages : (compileStages o lib source).Quiet := by
    refine .bind (lowerSource_quiet expanded) fun (us, m) lowered =>
      .bind (.mapError (Bytecode.optimize_quiet fun m' given => ?_)) fun m' _ =>
        .bind (.mapError (emit_quiet _ _ _)) fun text _ => .bind .of_note fun _ _ => .of_pure
    obtain ⟨u,c,l,p,checked,linked,reflected,ran⟩ := lowerSource_gives lowered
    have origin : Linked.FromSource p := ⟨[c],l,_,by simpa using ⟨u,lib,checked⟩,linked,reflected⟩
    obtain ⟨t,h,decoded,current,healthy,inside,below⟩ := Bytecode.lower_healthy origin ran
    obtain ⟨-,m'',-,-,always,-,-,none,-⟩ := healthy.optimize inside decoded current below
      fun on => room on us m lowered h t.code decoded
    rw [← always.eq_of_gives given]
    exact none
  intro j a j' ran
  unfold compile at ran
  rw [ExceptT.run_tryCatch,StateT.run_bind] at ran
  cases ran₁ : (compileStages o lib source).run.run j with
  | mk outcome t =>
    rw [ran₁] at ran
    cases outcome with
    | ok b =>
      cases ran
      exact stages j a t ran₁
    | error e =>
      obtain ⟨_,_,-,failed⟩ := exists_of_run_bind ran
      cases failed

end Compilation

section Shipping

variable (s : Sessions) (o : CompileOptions) (lib : Source.Library) (source : String) (sink : Artifact.Sink)

/-- Why an artifact that was compiled does not reach the sink whole: it has no bytes, or the sink failed
after it took some of them. -/
def Artifact.Lost (a : Artifact) (sink : Artifact.Sink) (f : Artifact.Fault) (taken : List UInt8) : Prop :=
  a.encode = .error f ∧ taken = [] ∨
    ∃ bs, a.encode = .ok bs ∧ (sink.write bs).outcome = .error f ∧ taken <+: bs

theorem Artifact.deliverTo_cases (a : Artifact) (sink : Artifact.Sink) :
    (a.deliverTo sink).outcome = .ok () ∧ a.encode = .ok (a.deliverTo sink).taken ∨
      ∃ f, (a.deliverTo sink).outcome = .error f ∧ a.Lost sink f (a.deliverTo sink).taken := by
  unfold deliverTo
  cases bytes : a.encode with
  | error f => exact .inr ⟨f,rfl,.inl ⟨bytes,rfl⟩⟩
  | ok bs =>
    cases written : (sink.write bs).outcome with
    | ok _ => exact .inl ⟨rfl,by rw [sink.takes_all bs written]⟩
    | error f => exact .inr ⟨f,rfl,.inr ⟨bs,bytes,written,sink.takes_front bs⟩⟩

theorem Artifact.lost_of_closed (a : Artifact) :
    ∃ f, (a.deliverTo (.closing (some 0))).outcome = .error f := by
  unfold deliverTo
  cases bytes : a.encode with
  | error f => exact ⟨f,rfl⟩
  | ok bs =>
    simp only [encode,Except.ite_throw_eq_ok,Except.bind_eq_ok,Except.pure_eq_ok] at bytes
    obtain ⟨-,-,_,-,rfl⟩ := bytes
    exact ⟨.sink "closed",by simp [Sink.closing]⟩

/-- What a shipment leaves behind. The session is over. If all went well, the sink has the bytes of the
artifact that was compiled. If the compilation failed, an error was reported, and the sink has nothing. If
only the artifact was lost, this is not reported: any error in the log comes from the expansion. -/
theorem shipTo_leaves : (shipTo s o lib source sink).sessions = s ∧
      (∀ a, (shipTo s o lib source sink).outcome = .ok a →
        (compile o lib source).run.run {} = (.ok a, (shipTo s o lib source sink).journal) ∧
          a.encode = .ok (shipTo s o lib source sink).taken) ∧
      (∀ e, (shipTo s o lib source sink).outcome = .error e → (∀ f, e ≠ .artifact f) →
        (compile o lib source).run.run {} = (.error e, (shipTo s o lib source sink).journal) ∧
          (shipTo s o lib source sink).journal.log.hasErrors = true ∧
          (shipTo s o lib source sink).taken = []) ∧
      ∀ f, (shipTo s o lib source sink).outcome = .error (.artifact f) →
        (∃ a, (compile o lib source).run.run {} = (.ok a, (shipTo s o lib source sink).journal) ∧
          a.Lost sink f (shipTo s o lib source sink).taken) ∧
        (o.ExpandsQuietly lib source →
          (o.optimize = true → ∀ us m, (lowerSource o lib source).Gives (us, m) → m.HasRoom) →
          (shipTo s o lib source sink).journal.log.hasErrors = false) := by
  cases ran : (compile o lib source).run.run {} with
  | mk outcome j =>
    cases outcome with
    | error e =>
      have shipped : shipTo s o lib source sink = ⟨[],.error e,j,s⟩ := by simp [shipTo,ran]
      obtain ⟨other,told⟩ := compile_fails o lib source {} e j ran
      rw [shipped]
      refine ⟨rfl,nofun,?_,?_⟩
      · rintro _ ⟨⟩ -
        exact ⟨rfl,told,rfl⟩
      · rintro f ⟨⟩
        exact absurd rfl (other f)
    | ok a =>
      have shipped : shipTo s o lib source sink = ⟨(a.deliverTo sink).taken,
          ((a.deliverTo sink).outcome.mapError .artifact).map fun _ => a,j,s⟩ := by simp [shipTo,ran]
      rw [shipped]
      rcases a.deliverTo_cases sink with ⟨ok,bytes⟩ | ⟨f,failed,lost⟩
      · rw [ok]
        refine ⟨rfl,?_,nofun,nofun⟩
        rintro _ ⟨⟩
        exact ⟨rfl,bytes⟩
      · rw [failed]
        refine ⟨rfl,nofun,?_,?_⟩
        · rintro _ ⟨⟩ other
          exact absurd rfl (other f)
        · rintro _ ⟨⟩
          exact ⟨⟨a,rfl,lost⟩,fun expanded room => compile_quiet expanded room {} a j ran⟩

end Shipping

namespace Emission.Reserved

theorem expands_quietly : options.ExpandsQuietly library source := by
  unfold CompileOptions.ExpandsQuietly
  decide +kernel

theorem artifact_lost : ∃ a j f, (compile options library source).run.run {} = (.ok a, j) ∧
    (ship {} options library source (some 0)).outcome = .error (.artifact f) ∧
    (ship {} options library source (some 0)).journal = j := by
  obtain ⟨d,made,-⟩ := document_made
  obtain ⟨j,ran⟩ := compiled_run made
  obtain ⟨f,failed⟩ := Artifact.lost_of_closed ⟨table,d.text⟩
  refine ⟨_,j,f,ran,?_,?_⟩
  · simp [ship,shipTo,ran,failed,Except.mapError,Except.map]
  · simp [ship,shipTo,ran]

end Emission.Reserved

theorem lost_artifact_leaves : Reserved.options.ExpandsQuietly Reserved.library Reserved.source ∧
    ∃ (a : Artifact) (f : Artifact.Fault),
    let left := shipTo {} Reserved.options Reserved.library Reserved.source (.closing (some 0))
    left.outcome = .error (.artifact f) ∧ a.Lost (.closing (some 0)) f left.taken ∧
      left.journal.log.hasErrors = false := by
  obtain ⟨_,_,f,-,failed,-⟩ := Reserved.artifact_lost
  obtain ⟨⟨a,-,lost⟩,quiet⟩ := (shipTo_leaves _ _ _ _ _).2.2.2 f failed
  have expanded := Reserved.expands_quietly
  exact ⟨expanded,a,f,failed,lost,quiet expanded fun on => by cases on⟩

/-- A compiled artifact is lost at a closed sink, and no error is reported. -/
theorem ship_fails_silently : ∃ f,
    (ship {} Reserved.options Reserved.library Reserved.source (some 0)).outcome =
        .error (.artifact f) ∧
      (ship {} Reserved.options Reserved.library Reserved.source
        (some 0)).journal.log.hasErrors = false := by
  obtain ⟨a,j,f,ran,failed,same⟩ := Reserved.artifact_lost
  exact ⟨f,failed,same ▸ compile_quiet Reserved.expands_quietly (fun on => by cases on) {} a j ran⟩

end Shading
