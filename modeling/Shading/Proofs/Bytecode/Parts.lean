import Shading.Proofs.Bytecode.Outline
import Shading.Proofs.Outcome

/-! The code of a module is cut into the parts that it was put together from, and structured code is
read back as it was written. -/
namespace Shading.Bytecode
open List Pass Routine

variable {code : List Instruction} {op : Opcode} {r : Routine} {t : Outline}

def Opcode.isInside (op : Opcode) : Bool := op != .function && op != .functionEnd

namespace Pass

/-- The head of a function, and of what follows it as much as was read. -/
def Opened (id : Id) (code : List Instruction) : Prop :=
  ∃ head inside, code = head :: inside ∧ head.op = .function ∧ head.result? = some id ∧
    ∀ i ∈ inside, i.op.isInside = true

def Part.Whole : Part → Prop
  | .outside i => i.op.isInside = true
  | .function f => ∃ code last, f.code = code ++ [last] ∧ Opened f.id code ∧ last.op = .functionEnd

theorem partsFrom_inside {inside rest : List Instruction} :
    (∀ i ∈ inside, i.op.isInside = true) → ∀ (f : FunctionCode) (index : Nat),
      partsFrom index (some f) (inside ++ rest) =
        partsFrom (index + inside.length) (some { f with code := f.code ++ inside }) rest := by
  induction inside with
  | nil => simp
  | cons i inside ih =>
    intro shaped f index
    rw [forall_mem_cons] at shaped
    have step : partsFrom index (some f) (i :: (inside ++ rest)) =
        partsFrom (index + 1) (some { f with code := f.code ++ [i] }) (inside ++ rest) := by
      obtain ⟨op,operands⟩ := i
      cases op <;> first | rfl | exact absurd shaped.1 Bool.false_ne_true
    rw [cons_append,step,ih shaped.2,length_cons,Nat.add_comm inside.length,← Nat.add_assoc]
    simp

theorem Part.Whole.partsFrom_code {p : Part} (whole : p.Whole) (index : Nat) (rest : List Instruction) :
    partsFrom index none (p.code ++ rest) =
      (partsFrom (index + p.code.length) none rest).map (p :: ·) := by
  cases p with
  | outside i =>
    obtain ⟨op,operands⟩ := i
    cases op <;> first | rfl | exact absurd whole Bool.false_ne_true
  | function f =>
    obtain ⟨id,_⟩ := f
    obtain ⟨_,last,rfl,⟨head,inside,rfl,starts,defines,within⟩,ends⟩ := whole
    have length : index + (head :: inside ++ [last]).length = index + 1 + inside.length + 1 := by
      simp only [cons_append,length_cons,length_append,length_nil]
      omega
    have split : head :: inside ++ [last] ++ rest = head :: (inside ++ last :: rest) := by simp
    rw [Part.code,length,split,partsFrom]
    simp only [starts,defines]
    rw [partsFrom_inside within,partsFrom]
    simp [ends]

variable {ps : List Part}

theorem partsFrom_of_whole (whole : ∀ p ∈ ps, p.Whole) (index : Nat) :
    partsFrom index none (ps.flatMap Part.code) = .ok ps := by
  induction ps generalizing index with
  | nil => rfl
  | cons p ps ih =>
    rw [forall_mem_cons] at whole
    rw [flatMap_cons,whole.1.partsFrom_code,ih whole.2]
    rfl

theorem whole_of_partsFrom {index : Nat} {o : Option FunctionCode}
    (read : partsFrom index o code = .ok ps) (opened : ∀ f ∈ o, Opened f.id f.code) :
    (∀ p ∈ ps, p.Whole) ∧ ps.flatMap Part.code = o.elim [] FunctionCode.code ++ code := by
  fun_induction partsFrom index o code generalizing ps with
  | case1 =>
    cases read
    simp
  | case2 | case3 | case5 | case7 => cases read
  | case4 index i rest function id defines ih =>
    refine ih read ?_
    rintro _ ⟨⟩
    exact ⟨i,[],rfl,function,defines,nofun⟩
  | case6 index i rest other last ih =>
    obtain ⟨qs,later,rfl⟩ := Except.map_eq_ok.mp read
    obtain ⟨whole,same⟩ := ih later nofun
    refine ⟨forall_mem_cons.mpr ⟨?_,whole⟩,by rw [flatMap_cons,same]; rfl⟩
    grind [Part.Whole,Opcode.isInside]
  | case8 index f i rest last ih =>
    obtain ⟨qs,later,rfl⟩ := Except.map_eq_ok.mp read
    obtain ⟨whole,same⟩ := ih later nofun
    refine ⟨forall_mem_cons.mpr ⟨⟨f.code,i,rfl,opened f rfl,last⟩,whole⟩,?_⟩
    simp [same,Part.code]
  | case9 index f i rest other last ih =>
    obtain ⟨head,inside,starts,function,defines,within⟩ := opened f rfl
    have longer : Opened f.id (f.code ++ [i]) := by
      refine ⟨head,inside ++ [i],by simp [starts],function,defines,?_⟩
      grind [Opcode.isInside]
    obtain ⟨whole,same⟩ := ih read (by rintro _ ⟨⟩; exact longer)
    exact ⟨whole,by simp [same]⟩

/-- Code is cut into whole parts, and whole parts are found again in the code that they make. -/
theorem parts_eq_ok : parts code = .ok ps ↔ (∀ p ∈ ps, p.Whole) ∧ ps.flatMap Part.code = code := by
  refine ⟨fun read => ?_,fun ⟨whole,same⟩ => same ▸ partsFrom_of_whole whole 0⟩
  simpa using whole_of_partsFrom read nofun

end Pass

theorem Opcode.isInside_of_isBody (body : op.isBody = true) : op.isInside = true := by
  cases op <;> revert body <;> decide

theorem Opcode.isInside_of_isOutside (outside : op.isOutside = true) : op.isInside = true := by
  cases op <;> revert outside <;> decide

def Routine.part (r : Routine) : Part := .function ⟨r.id, r.code⟩

theorem Routine.Shaped.whole (shaped : r.Shaped) : r.part.Whole := by
  refine ⟨_,_,rfl,⟨r.head,_,rfl,shaped.head,shaped.defines,?_⟩,rfl⟩
  grind [Opcode.isInside_of_isBody,Shaped.body,Block.Proper.isBody,Opcode.isInside,Shaped.params]

namespace Outline

def pieces (t : Outline) : List Part := t.outside.map Part.outside ++ t.routines.map part

theorem flatMap_pieces (t : Outline) : t.pieces.flatMap Part.code = t.code := by
  rw [pieces,flatMap_append,flatMap_map,flatMap_map]
  exact congrArg (· ++ _) (flatMap_singleton' t.outside)

theorem Shaped.parts_code (shaped : t.Shaped) : parts t.code = .ok t.pieces := by
  refine parts_eq_ok.mpr ⟨forall_mem_append.mpr ⟨?_,?_⟩,t.flatMap_pieces⟩
  · exact forall_mem_map.mpr fun i mem => Opcode.isInside_of_isOutside (shaped.outside i mem)
  · exact forall_mem_map.mpr fun r mem => (shaped.routines r mem).whole

def functions (t : Outline) : List FunctionCode := t.routines.map fun r => ⟨r.id, r.code⟩

theorem functions_pieces (t : Outline) : t.pieces.filterMap Part.function? = t.functions := by
  have none : t.outside.filterMap (Part.function? ∘ Part.outside) = [] :=
    filterMap_eq_nil_iff.mpr fun _ _ => rfl
  rw [pieces,filterMap_append,filterMap_map,filterMap_map,none,nil_append,functions,← filterMap_eq_map]
  rfl

end Outline

def Pass.Part.outside? : Part → Option Instruction
  | .outside i => some i
  | .function _ => none

/-- The function that a part is. -/
def Routine.ofCode? : List Instruction → Option Routine
  | [] => none
  | head :: rest =>
    let params := rest.takeWhile fun i => i.op == .functionParameter
    (Block.ofCode? (rest.drop params.length).dropLast).map fun body => ⟨head, params, body⟩

/-- The structure of a module. -/
def Outline.ofCode? (code : List Instruction) : Option Outline :=
  match parts code with
  | .error _ => none
  | .ok found =>
    ((found.filterMap Part.function?).mapM fun f => Routine.ofCode? f.code).map fun routines =>
      ⟨found.filterMap Part.outside?, routines⟩

theorem Routine.Shaped.ofCode?_code (shaped : r.Shaped) : Routine.ofCode? r.code = some r := by
  let parameter : Instruction → Bool := fun i => i.op == .functionParameter
  let last : List Instruction := [⟨.functionEnd,[]⟩]
  -- A body does not begin with a parameter, so the parameters end where it begins.
  have stops : (r.body.code ++ last).takeWhile parameter = [] := by
    cases starts : r.body.code with
    | nil => rfl
    | cons i rest =>
      have body := shaped.body.isBody i (starts ▸ mem_cons_self)
      have first : parameter i = false := by
        rw [beq_eq_false_iff_ne]
        intro op
        rw [op] at body
        exact Bool.false_ne_true body
      rw [cons_append,takeWhile_cons,first]
      rfl
  have params : (r.params ++ (r.body.code ++ last)).takeWhile parameter = r.params := by
    rw [takeWhile_append_of_pos fun i mem => by simp [parameter,shaped.params i mem],stops,append_nil]
  have body : ((r.params ++ (r.body.code ++ last)).drop r.params.length).dropLast = r.body.code := by
    rw [drop_left,dropLast_concat]
  have whole : r.code = r.head :: (r.params ++ (r.body.code ++ last)) := by
    rw [code,cons_append,List.append_assoc]
  rw [whole,Routine.ofCode?]
  simp only [show (fun i : Instruction => i.op == .functionParameter) = parameter from rfl,params,body,
    Block.ofCode?_code shaped.body]
  rfl

theorem mapM_ofCode? {routines : List Routine} (shaped : ∀ r ∈ routines, r.Shaped) :
    (routines.map fun r => FunctionCode.mk r.id r.code).mapM (fun f => Routine.ofCode? f.code) =
      some routines := by
  induction routines with
  | nil => rfl
  | cons r routines ih =>
    rw [forall_mem_cons] at shaped
    simp [shaped.1.ofCode?_code,ih shaped.2]

theorem Outline.Shaped.ofCode?_code (shaped : t.Shaped) : Outline.ofCode? t.code = some t := by
  have outside : t.pieces.filterMap Part.outside? = t.outside := by
    have none : t.routines.filterMap (Part.outside? ∘ part) = [] :=
      filterMap_eq_nil_iff.mpr fun _ _ => rfl
    rw [pieces,filterMap_append,filterMap_map,filterMap_map,none,append_nil]
    exact filterMap_some
  simp only [Outline.ofCode?,shaped.parts_code,t.functions_pieces,outside,functions,
    mapM_ofCode? shaped.routines]
  rfl

end Shading.Bytecode
