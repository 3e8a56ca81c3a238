import Shading.Proofs.Bytecode.Encoding
import Shading.Proofs.Pass.DeadCode
import Shading.Proofs.Pass.DeadFunctions
import Shading.Proofs.Pass.Fold
import Shading.Proofs.Pass.Naming
import Shading.Proofs.Pass.Unreachable

/-! All passes in their order. What each one needs of a module the ones before it leave, so none fails,
and what they leave can be written down and read back, is valid, and has the same decorations. -/
namespace Shading.Bytecode
open List Pass Reporting Instruction

variable {ps : List Pass} {code final : List Instruction} {h : Header} {full : Bool} {bound : Id}

namespace Outline

variable {t t' : Outline}

/-- What the passes need of a module and keep. -/
structure Healthy (t : Outline) : Prop where
  shaped : t.Shaped
  valid : t.Valid
  decorated : ∀ i ∈ t.outside, i.op = .decorate → i.operand 0 ∈ results t.outside
  written : ∀ i ∈ t.code, i.Short ∧ i.Full

theorem Healthy.trim (healthy : t.Healthy) (trims : t'.Trims t) : t'.prune.Healthy := by
  refine ⟨trims.shaped.prune,trims.valid healthy.valid,fun i mem op => ?_,fun i mem => ?_⟩
  · rw [prune,results_filter_isFresh,trims.outside]
    have here := (mem_filter.mp mem).1
    rw [trims.outside] at here
    exact healthy.decorated i here op
  · exact healthy.written i (trims.sub.subset (prune_sublist.subset mem))

def legal (t : Outline) : Outline := (t.keep t.live).prune.reach.prune

theorem Valid.keep_scoped (valid : t.Valid) (shaped : t.Shaped) (inside : t.Scoped) :
    (t.keep t.live).prune.Scoped :=
  (valid.keep_trims shaped inside).scoped valid inside
    (fun r mem => inside.heads r (mem_keep.mp mem).1)
    fun r mem => inside.bodies r (mem_keep.mp mem).1

theorem Valid.reach_scoped (valid : t.Valid) (shaped : t.Shaped) (inside : t.Scoped) :
    t.reach.prune.Scoped := by
  refine (valid.reach_trims shaped inside).scoped valid inside (fun r mem => ?_) fun r mem => ?_
  · obtain ⟨q,origin,rfl⟩ := mem_map.mp mem
    exact inside.heads q origin
  · obtain ⟨q,origin,rfl⟩ := mem_map.mp mem
    exact (inside.bodies q origin).reach

section

variable (healthy : t.Healthy)
include healthy

theorem Healthy.legal_trims (inside : t.Scoped) :
    (t.keep t.live).Trims t ∧ (t.keep t.live).prune.Healthy ∧ (t.keep t.live).prune.Scoped ∧
      (t.keep t.live).prune.reach.Trims (t.keep t.live).prune := by
  have first := healthy.valid.keep_trims healthy.shaped inside
  have kept := healthy.trim first
  have visible := healthy.valid.keep_scoped healthy.shaped inside
  exact ⟨first,kept,visible,kept.valid.reach_trims kept.shaped visible⟩

theorem Healthy.legal (inside : t.Scoped) :
    t.legal.Healthy ∧ t.legal.Scoped ∧ t.legal.code.Sublist t.code ∧
      decorations t.legal.code = decorations t.code := by
  obtain ⟨first,kept,visible,second⟩ := healthy.legal_trims inside
  refine ⟨kept.trim second,kept.valid.reach_scoped kept.shaped visible,?_,?_⟩
  · exact prune_sublist.trans (second.sub.trans (prune_sublist.trans first.sub))
  · exact (second.decorations_code kept.valid kept.shaped kept.decorated).trans
      (first.decorations_code healthy.valid healthy.shaped healthy.decorated)

theorem Healthy.fold (inside : t.Scoped) (room : t.Roomy) : t.fold.Healthy := by
  refine ⟨healthy.shaped.fold,healthy.valid.fold healthy.shaped room inside.named,
    fun i mem op => ?_,fun i mem => ?_⟩
  · rw [Outline.fold,results_append]
    rcases mem_append.mp mem with here | added
    · exact mem_append_left _ (healthy.decorated i here op)
    · obtain ⟨ty,x,word,kind,rfl,-⟩ := healthy.shaped.folding_sound.added i added
      cases op
  · rw [fold_code,healthy.valid.fold_inside healthy.shaped] at mem
    rcases mem_append.mp mem with outer | inner
    · rcases mem_append.mp outer with here | added
      · exact healthy.written i (mem_append_left _ here)
      · obtain ⟨ty,x,word,kind,rfl,-⟩ := healthy.shaped.folding_sound.added i added
        exact ⟨Nat.lt_of_sub_eq_succ rfl,Nat.le_refl _⟩
    · obtain ⟨j,kept,rfl⟩ := mem_map.mp inner
      have written := healthy.written j (mem_append_right _ (mem_filter.mp kept).1)
      simpa [Short,Full,wordCount] using written

theorem Healthy.unname : t.unname.Healthy := by
  refine ⟨healthy.shaped.unname,healthy.valid.unname healthy.shaped,fun i mem op => ?_,
    fun i mem => healthy.written i (unname_sublist.subset mem)⟩
  rw [Outline.unname,results_filter_namesNone]
  exact healthy.decorated i (mem_filter.mp mem).1 op

theorem Healthy.compact (small : (results t.code).length < 2 ^ 32) : t.compact.Healthy := by
  refine ⟨healthy.shaped.rename _,healthy.valid.compact healthy.shaped small,fun i mem op => ?_,
    fun i mem => ?_⟩
  · obtain ⟨j,before,rfl⟩ := mem_map.mp mem
    have op : j.op = .decorate := op
    have target := healthy.decorated j before op
    have present : ¬ j.operands.length ≤ 0 := by
      intro missing
      rw [operand_eq,getD_eq_getElem?_getD,getElem?_eq_none missing] at target
      refine healthy.valid.nonzero ?_
      rw [code,results_append]
      exact mem_append_left _ target
    rw [Outline.compact,Outline.rename,results_map_renameIds,
      operand_renameIds (by simp [refersAt,op]),if_neg present]
    exact mem_map_of_mem target
  · rw [Outline.compact,code_rename] at mem
    obtain ⟨j,before,rfl⟩ := mem_map.mp mem
    simpa [Short,Full,wordCount] using healthy.written j before

/-- What the passes make of a module. -/
inductive Optimized (t : Outline) : Bool → Outline → Prop
  | legal : t.Optimized false t.legal
  | full {last : Outline} (swept : t.legal.fold.Swept last) :
      t.Optimized true last.prune.unname.compact

theorem Healthy.length_fold : t.fold.code.length ≤ t.code.length := by
  have counted := healthy.shaped.folding_length
  rw [Folding.run_code (learned_keyed _) (healthy.valid.continues healthy.shaped),← folding,
    ← healthy.valid.fold_inside healthy.shaped] at counted
  grind [code,inside,fold_code]

end

theorem length_results_le (code : List Instruction) : (results code).length ≤ code.length :=
  length_filterMap_le ..

/-- What each of the later passes leaves is a module again. -/
structure Stages (t last : Outline) : Prop where
  folded : t.legal.fold.Healthy
  trims : last.Trims t.legal.fold
  trimmed : last.prune.Healthy
  unnamed : last.prune.unname.Healthy
  length : (results last.prune.unname.code).length ≤ t.code.length

theorem Swept.stages {last : Outline} (swept : t.legal.fold.Swept last) (healthy : t.Healthy)
    (inside : t.Scoped) (room : t.legal.Roomy) : t.Stages last := by
  obtain ⟨legal,visible,sub,-⟩ := healthy.legal inside
  have folded := legal.fold visible room
  have trims := swept.trims folded.valid folded.shaped
  refine ⟨folded,trims,folded.trim trims,(folded.trim trims).unname,?_⟩
  have := length_results_le last.prune.unname.code
  have := (unname_sublist (t := last.prune)).length_le
  have := (prune_sublist.trans trims.sub).length_le
  have := legal.length_fold
  have := sub.length_le
  omega

end Outline

variable {source : String}

theorem always_runPasses_cons {p : Pass} {code' : List Instruction}
    (ran : (p.run code).map Outcome.code = .ok code')
    (rest : (runPasses source ps code').Always final) :
    (runPasses source (p :: ps) code).Always final := by
  obtain ⟨⟨_,said⟩,gave,rfl⟩ := Except.map_eq_ok.mp ran
  unfold runPasses
  refine (always_note _ _).bind ((always_report _).bind ?_)
  rw [gave]
  cases said with
  | none => exact rest
  | some text => exact (always_note _ _).bind rest

namespace Outline

variable {t : Outline}

theorem Healthy.runs_legalization (healthy : t.Healthy) (inside : t.Scoped)
    (rest : (runPasses source ps t.legal.code).Always final) :
    (runPasses source (Pass.legalization ++ ps) t.code).Always final := by
  obtain ⟨-,kept,-⟩ := healthy.legal_trims inside
  refine always_runPasses_cons (healthy.valid.dropDeadFunctions_code healthy.shaped) ?_
  exact always_runPasses_cons (kept.valid.dropUnreachable_code kept.shaped) rest

/-- No pass fails, and what is left is a module again. -/
theorem Healthy.runs (healthy : t.Healthy) (inside : t.Scoped) (source : String) (full : Bool)
    (room : full = true → t.legal.Roomy ∧ t.code.length < 2 ^ 32) : ∃ t', t.Optimized full t' ∧
      (runPasses source (Pass.legalization ++ if full then Pass.performance else []) t.code).Always
        t'.code ∧ t'.Healthy ∧ decorations t'.code = decorations t.code := by
  obtain ⟨legal,visible,-,same⟩ := healthy.legal inside
  cases full with
  | false => exact ⟨_,.legal,healthy.runs_legalization inside (always_pure _),legal,same⟩
  | true =>
    obtain ⟨room,small⟩ := room rfl
    have folded := legal.fold visible room
    obtain ⟨last,swept,deadCode⟩ := folded.valid.dropDeadCode_code folded.shaped
    obtain ⟨-,trims,trimmed,unnamed,length⟩ := swept.stages healthy inside room
    have count := Nat.lt_of_le_of_lt length small
    refine ⟨_,.full swept,healthy.runs_legalization inside ?_,unnamed.compact count,?_⟩
    · refine always_runPasses_cons (legal.valid.foldScalars_code legal.shaped) ?_
      refine always_runPasses_cons deadCode ?_
      refine always_runPasses_cons trimmed.shaped.dropLocalNames_code ?_
      exact always_runPasses_cons unnamed.valid.renumber_code (always_pure _)
    · calc decorations last.prune.unname.compact.code
          = decorations last.prune.unname.code :=
            unnamed.valid.decorations_rename unnamed.shaped (compact_apart count)
        _ = decorations last.prune.code :=
            trimmed.valid.decorations_unname trimmed.shaped trimmed.decorated
        _ = decorations t.legal.fold.code :=
            trims.decorations_code folded.valid folded.shaped folded.decorated
        _ = decorations t.legal.code := legal.shaped.decorations_fold
        _ = decorations t.code := same

end Outline

theorem always_optimize {m m' : Module} {h : Header} {code optimized : List Instruction} {full : Bool}
    (decoded : decode m = .ok (h, code))
    (ran : (runPasses source (Pass.legalization ++ if full then Pass.performance else []) code).Always
      optimized)
    (same : decorations optimized = decorations code)
    (assembled : Module.assemble { h with bound := boundOf optimized } optimized = .ok m') :
    (optimize m full source).Always m' := by
  unfold optimize
  rw [decoded]
  refine ran.bind ?_
  rw [if_neg (by simp [same])]
  rw [assembled]
  exact (always_reportAll _).bind ((always_note _ _).bind (always_pure _))

theorem lt_boundOf (room : (maxId code).toNat + 1 < 2 ^ 32) {x : Id} (defined : x ∈ results code) :
    x < boundOf code := by
  have le := le_maxId defined
  grind [boundOf,UInt32.toNat_add,UInt32.lt_iff_toNat_lt]

namespace Outline

variable {t t' : Outline}

theorem Healthy.assemble (healthy : t.Healthy) (current : h.Current)
    (bounded : ∀ x ∈ results t.code, x < h.bound) :
    ∃ m, Module.assemble h t.code = .ok m ∧ decode m = .ok (h, t.code) ∧ m.findings = [] := by
  have assembled : Module.assemble h t.code = .ok ⟨h.words ++ t.code.flatMap words⟩ :=
    Module.assemble_eq_ok.mpr ⟨fun i mem => (healthy.written i mem).1,rfl⟩
  have decoded := (decode_assemble current assembled).mpr
    ⟨rfl,rfl,fun i mem => (healthy.written i mem).2⟩
  grind [Module.findings_eq_nil_iff,findings_eq_nil_iff,Healthy.shaped,Healthy.valid]

theorem Valid.results_ne_nil (valid : t.Valid) : ∃ x, x ∈ results t.code := by
  obtain ⟨i,-,-,-,function,-⟩ := valid.entryPoint
  exact ⟨_,(kindOf_isSome valid.unique).mp (by rw [function]; rfl)⟩

theorem Optimized.maxId_lt (optimized : t.Optimized full t') (healthy : t.Healthy)
    (inside : t.Scoped) (bounded : ∀ x ∈ results t.code, x < bound)
    (room : full = true → bound.toNat + t.code.length ≤ 2 ^ 32 ∧ t.legal.Roomy) :
    (maxId t'.code).toNat + 1 < 2 ^ 32 := by
  have limit := bound.toNat_lt
  have below : ∀ x ∈ results t.code, x.toNat < bound.toNat :=
    fun x mem => UInt32.lt_iff_toNat_lt.mp (bounded x mem)
  suffices ids : ∀ x ∈ results t'.code, x.toNat < 2 ^ 32 - 1 by
    have := Bytecode.maxId_lt (by decide) ids
    omega
  cases optimized with
  | legal =>
    intro x mem
    have := below x ((Sublist.filterMap _ (healthy.legal inside).2.2.1).subset mem)
    omega
  | full swept =>
    obtain ⟨room,roomy⟩ := room rfl
    obtain ⟨first,mem⟩ := healthy.valid.results_ne_nil
    have positive : 0 < first.toNat := by
      rw [Nat.pos_iff_ne_zero]
      intro zero
      have zero : first = 0 := UInt32.toNat_inj.mp zero
      exact healthy.valid.nonzero (zero ▸ mem)
    have lowest := below first mem
    have count := (swept.stages healthy inside roomy).length
    intro x mem
    rw [compact,code_rename,results_map_renameIds] at mem
    obtain ⟨y,defined,rfl⟩ := mem_map.mp mem
    have := number_le (by omega) defined
    omega

theorem Healthy.roomy (healthy : t.Healthy) (inside : t.Scoped)
    (bounded : ∀ x ∈ results t.code, x < bound) (room : bound.toNat + t.code.length ≤ 2 ^ 32) :
    t.legal.Roomy ∧ t.code.length < 2 ^ 32 := by
  obtain ⟨-,-,sub,-⟩ := healthy.legal inside
  obtain ⟨first,mem⟩ := healthy.valid.results_ne_nil
  have below : ∀ x ∈ results t.code, x.toNat < bound.toNat :=
    fun x mem => UInt32.lt_iff_toNat_lt.mp (bounded x mem)
  have lowest := below first mem
  have length := sub.length_le
  have inner : t.legal.code.length = t.legal.outside.length + t.legal.inside.length :=
    length_append
  have := Bytecode.maxId_lt (by omega)
    fun x mem => below x ((Sublist.filterMap _ sub).subset mem)
  refine ⟨?_,by omega⟩
  unfold Roomy
  omega

theorem Healthy.optimize (healthy : t.Healthy) (inside : t.Scoped) {m : Module}
    (decoded : decode m = .ok (h, t.code)) (current : h.Current)
    (bounded : ∀ x ∈ results t.code, x < h.bound)
    (room : full = true → h.bound.toNat + t.code.length ≤ 2 ^ 32) :
    ∃ t' m' h', t.Optimized full t' ∧ (Bytecode.optimize m full source).Always m' ∧
      decode m' = .ok (h', t'.code) ∧ t'.Healthy ∧ m'.findings = [] ∧
      decorations t'.code = decorations t.code := by
  obtain ⟨t',optimized,ran,healthy',same⟩ := healthy.runs inside source full
    fun on => healthy.roomy inside bounded (room on)
  have top := optimized.maxId_lt healthy inside bounded fun on =>
    ⟨room on,(healthy.roomy inside bounded (room on)).1⟩
  obtain ⟨m',assembled,decoded',none⟩ := healthy'.assemble (h := { h with bound := boundOf t'.code })
    current fun x defined => lt_boundOf top defined
  exact ⟨t',m',_,optimized,always_optimize decoded ran same assembled,decoded',healthy',none,same⟩

end Outline

end Shading.Bytecode
