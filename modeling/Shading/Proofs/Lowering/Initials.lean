import Shading.Proofs.Lowering.ProgramCode
import Shading.Proofs.Lowering.StmtWrites

/-! The entry point begins with the initial values of the globals: they are stored one after the other, in
the order of the globals. -/
namespace Shading.Lowering
open List Bytecode Typed

def initialized (gs : List Global) : List Global := gs.filter fun g => g.builtin.isNone && g.init.isSome

def StoresInOrder (table : List (String × Id × StorageClass)) : List Global → List Instruction → Prop
  | [], code => code = []
  | g :: gs, code => ∃ value id storage v rest, code = value ++ ⟨.store, [id, v]⟩ :: rest ∧
      table.lookup g.name = some (id, storage) ∧ StoresInOrder table gs rest

variable {s s' : State}

variable {p : Program} {a : Unit}

theorem lowerInits_stores {gs : List Global} (ran : (lowerInits p gs).run s = .ok (a, s')) :
    s.Continues s' ∧ ∃ code, s'.code.toList = s.code.toList ++ code ∧
      StoresInOrder s.globals (initialized gs) code := by
  induction gs generalizing s with
  | nil =>
    cases ran
    exact ⟨.refl _,[],by simp,rfl⟩
  | cons g gs ih =>
    have passed (skipped : initialized (g :: gs) = initialized gs) (ran : (lowerInits p gs).run s = .ok (a, s')) :
        s.Continues s' ∧ ∃ code, s'.code.toList = s.code.toList ++ code ∧
          StoresInOrder s.globals (initialized (g :: gs)) code := by
      rw [skipped]
      exact ih ran
    rw [lowerInits] at ran
    split at ran
    · rename_i plain
      split at ran
      · rename_i e init
        obtain ⟨⟨id,storage⟩,s₁,ranId,ran⟩ := Lower.run_bind_eq_ok.mp ran
        obtain ⟨v,s₂,ranValue,ran⟩ := Lower.run_bind_eq_ok.mp ran
        obtain ⟨_,s₃,wrote,ran⟩ := Lower.run_bind_eq_ok.mp ran
        obtain ⟨rfl,found⟩ := variableId_eq_ok ranId
        have valued := Adds.lowerExpr p e s₁ v s₂ ranValue
        have stored := Adds.emit _ _ s₂ _ s₃ wrote
        cases emit_eq_ok wrote
        obtain ⟨continued,rest,code,others⟩ := ih ran
        obtain ⟨value,before⟩ := valued.code
        refine ⟨(valued.trans stored).trans continued,value ++ ⟨.store,[id,v]⟩ :: rest,?_,?_⟩
        · rw [code,State.wrote_code,← before]
          simp
        · have kept : initialized (g :: gs) = g :: initialized gs := by simp [initialized,plain,init]
          rw [kept]
          refine ⟨value,id,storage,v,rest,rfl,found,?_⟩
          have same := (valued.trans stored).globals
          exact same ▸ others
      · rename_i none
        refine passed ?_ ran
        have unset : g.init = .none := Option.eq_none_iff_forall_ne_some.mpr none
        simp [initialized,unset]
    · rename_i builtin
      exact passed (by simp [initialized,builtin]) ran

variable {f : Typed.Function} {body : List Stmt}

theorem lowerBody_stores (entry : f.isEntry = true) (ran : (lowerBody p f body).run s = .ok (a, s')) :
    ∃ inits rest, s'.code.toList = s.code.toList ++ inits ++ rest ∧
      StoresInOrder s.globals (initialized p.globals) inits := by
  rw [lowerBody,if_pos entry] at ran
  obtain ⟨_,t,ranInits,ran⟩ := Lower.run_bind_eq_ok.mp ran
  obtain ⟨-,inits,code,stores⟩ := lowerInits_stores ranInits
  have unended : Adds (do
      lowerStmts p body
      let ended := (← get).code.back?.any fun i => i.op.isTerminator
      if !ended && f.returnTy.isVoid then emit .ret []) := by
    refine .bind (.lowerStmts p body) fun _ => .bind .of_get fun _ => ?_
    dsimp only
    split
    · exact .emit _ _
    · exact .of_pure
  obtain ⟨rest,more⟩ := (unended t _ s' ran).code
  exact ⟨inits,rest,by rw [← more,code],stores⟩

namespace Adds

theorem lowerParams : ∀ (qs : List Param) (ptrs : List Id), Adds (lowerParams qs ptrs)
  | q :: qs, ptr :: ptrs => by
    rw [Lowering.lowerParams]
    exact .bind .fresh fun _ => .bind (.emit _ _) fun _ => .bind (.addName _ _) fun _ =>
      .bind (lowerParams qs ptrs) fun _ => .of_pure
  | [], _ | _ :: _, [] => by
    rw [Lowering.lowerParams]
    all_goals first | exact .of_pure | simp

end Adds

theorem lowerParams_ops : ∀ {qs : List Param} {ptrs : List Id} {s s' : State} {ids : List Id},
    (lowerParams qs ptrs).run s = .ok (ids, s') → ∃ params, s'.code.toList = s.code.toList ++ params ∧
      ∀ i ∈ params, i.op = .functionParameter
  | q :: qs, ptr :: ptrs, s, s', ids, ran => by
    rw [lowerParams] at ran
    obtain ⟨id,s₁,ranFresh,ran⟩ := Lower.run_bind_eq_ok.mp ran
    obtain ⟨_,s₂,wrote,ran⟩ := Lower.run_bind_eq_ok.mp ran
    obtain ⟨_,s₃,ranName,ran⟩ := Lower.run_bind_eq_ok.mp ran
    obtain ⟨rest,s₄,ranRest,given⟩ := Lower.run_bind_eq_ok.mp ran
    cases ranFresh
    cases emit_eq_ok wrote
    obtain ⟨params,code,ops⟩ := lowerParams_ops ranRest
    cases given
    have named : s₃.code = (State.wrote { s with nextId := s.nextId + 1 }
        ⟨.functionParameter,[ptr,s.nextId,.ofNat (paramMode q).code]⟩).code := by
      unfold addName at ranName
      split at ranName <;> cases ranName <;> rfl
    refine ⟨⟨.functionParameter,[ptr,s.nextId,.ofNat (paramMode q).code]⟩ :: params,?_,
      forall_mem_cons.mpr ⟨rfl,ops⟩⟩
    rw [code,named,State.wrote_code]
    simp
  | [], _, s, s', ids, ran | _ :: _, [], s, s', ids, ran => by
    rw [lowerParams] at ran
    · cases ran
      exact ⟨[],by simp,by simp⟩
    · simp

/-- In the code there is a function of the id, and it begins with the initial values of the globals. -/
def BeginsWithInits (table : List (String × Id × StorageClass)) (gs : List Global) (id : Option Id)
    (code : List Instruction) : Prop :=
  ∃ before head params inits rest, code = before ++ head :: (params ++ inits ++ rest) ∧
    head.op = .function ∧ head.result? = id ∧ (∀ i ∈ params, i.op = .functionParameter) ∧
      StoresInOrder table gs inits

theorem BeginsWithInits.mono {table : List (String × Id × StorageClass)} {gs : List Global}
    {id : Option Id} {code code' : List Instruction} (begins : BeginsWithInits table gs id code)
    (more : code <+: code') : BeginsWithInits table gs id code' := by
  obtain ⟨before,head,params,inits,rest,rfl,others⟩ := begins
  obtain ⟨after,rfl⟩ := more
  exact ⟨before,head,params,inits,rest ++ after,by simp,others⟩

theorem lowerFunction_stores (entry : f.isEntry = true) (hasBody : f.body = some body)
    (ran : (lowerFunction p f).run s = .ok (a, s')) :
    BeginsWithInits s.globals (initialized p.globals) (s.functions.lookup f.signature) s'.code.toList := by
  obtain ⟨id,returnTy,ptrs,ty,params,s₁,s₂,s₃,found,ranHead,ranParams,ranBody,rfl⟩ :=
    (lowerFunction_eq_ok hasBody).mp ran
  have headed := Adds.of_finds (fun _ => headTys_finds f) s _ s₁ ranHead
  have given := Adds.lowerParams f.params ptrs _ params s₂ ranParams
  obtain ⟨paramCode,before,ops⟩ := lowerParams_ops ranParams
  obtain ⟨inits,rest,code,stores⟩ := lowerBody_stores entry ranBody
  refine ⟨s₁.code.toList,⟨.function,[returnTy,id,ty]⟩,paramCode,inits,
    rest ++ [⟨.functionEnd,[]⟩],?_,rfl,found.symm,ops,headed.globals ▸ given.globals ▸ stores⟩
  simp [code,before]

theorem Adds.lowerFunction (p : Program) (f : Typed.Function) : Adds (lowerFunction p f) := by
  intro s a s' ran
  cases hasBody : f.body with
  | none =>
    rw [Lowering.lowerFunction,hasBody] at ran
    cases ran
    exact .refl s
  | some body =>
    obtain ⟨id,returnTy,ptrs,ty,params,s₁,s₂,s₃,-,ranHead,ranParams,ranBody,rfl⟩ :=
      (lowerFunction_eq_ok hasBody).mp ran
    have headed := (Adds.of_finds (fun _ => headTys_finds f) s _ s₁ ranHead).trans
      (Adds.emit .function [returnTy,id,ty] s₁ () _ rfl)
    have given := headed.trans (Adds.lowerParams f.params ptrs _ params s₂ ranParams)
    have framed : s₂.Continues { s₂ with frame := { declared := f.locals, params } } :=
      .of_same prefix_rfl prefix_rfl ⟨rfl,rfl,rfl,rfl,rfl,rfl⟩
    have ended : s₃.Continues { s₃.wrote ⟨.functionEnd,[]⟩ with frame := {} } :=
      .of_same (by simp) prefix_rfl ⟨rfl,rfl,rfl,rfl,rfl,rfl⟩
    exact given.trans (framed.trans ((Adds.lowerBody p f body _ () s₃ ranBody).trans ended))

theorem lowerFunctions_store (entry : f.isEntry = true) (hasBody : f.body = some body)
    {fs : List Typed.Function} (mem : f ∈ fs) (ran : (fs.forM (lowerFunction p)).run s = .ok (a, s')) :
    s.Continues s' ∧
      BeginsWithInits s.globals (initialized p.globals) (s.functions.lookup f.signature) s'.code.toList := by
  induction fs generalizing s with
  | nil => cases mem
  | cons g fs ih =>
    obtain ⟨_,t,ranFirst,ranRest⟩ := Lower.run_bind_eq_ok.mp ran
    have first := Adds.lowerFunction p g s _ t ranFirst
    have rest := Adds.of_forM (Adds.lowerFunction p) fs t a s' ranRest
    refine ⟨first.trans rest,?_⟩
    rcases mem_cons.mp mem with rfl | later
    · exact (lowerFunction_stores entry hasBody ranFirst).mono rest.code
    · rw [← first.globals,← first.functions]
      exact (ih later ranRest).2

theorem lowerCode_stores (mem : f ∈ Linked.calleesFirst p) (entry : f.isEntry = true)
    (hasBody : f.body = some body) {code : List Instruction} (ran : (lowerCode p).run {} = .ok (code, s)) :
    BeginsWithInits s.globals (initialized p.globals) (s.functions.lookup f.signature) code := by
  obtain ⟨s₁,s₂,entry',id,-,ranNames,ranGlobals,ranFunctions,-,rfl⟩ := lowerCode_eq_ok ran
  obtain ⟨continued,before,head,params,inits,rest,same,others⟩ :=
    lowerFunctions_store entry hasBody mem ranFunctions
  rw [continued.globals,continued.functions]
  exact ⟨s.outside (aboutProgram p id) ++ before,head,params,inits,rest,by simp [same],others⟩

end Shading.Lowering
