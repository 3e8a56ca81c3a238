import Shading.Proofs.Source.Nesting
import Shading.Proofs.Surface.Spelling

/-! The map of an expansion. Every line of the result was made of a logical line of some file, and the map leads
from an offset in the line back to that file and to the number of the line there. -/
namespace Shading.Source
open List Surface

variable {l : LogicalLine} {place : Place} {i offset : Nat} {ls : List (List Char)}

/-- A line of the result: what it was made of, with the macros and the version of that moment. -/
structure Made where
  file : String
  line : LogicalLine
  macros : Macros
  version : Nat

def Made.text (m : Made) : List Char := expand ⟨m.line.number, m.version⟩ m.macros m.line.text

section OneLine

variable {cs : List Char}

theorem newline_not_mem_linesFrom {mode : Mode} {start line : Nat} {done : List Char}
    (one : '\n' ∉ done) (mem : l ∈ linesFrom mode start line done cs) : '\n' ∉ l.text := by
  fun_induction linesFrom mode start line done cs <;> grind

def Piece.chars : Piece → List Char
  | .word name => name
  | .number text => text
  | .other c => [c]

theorem flatMap_chars_pieces (cs : List Char) : (pieces cs).flatMap Piece.chars = cs := by
  fun_induction pieces cs <;> simp_all [Piece.chars]

theorem newline_not_mem_toString (n : Nat) : '\n' ∉ (toString n).toList := fun mem => by
  cases all_eq_true.mp (isDigit_toDigits n) '\n' (by simpa using mem)

theorem predefined?_eq_some {name : String} {value : List Char}
    (predefined : place.predefined? name = some value) :
    ∃ n : Nat, value = (toString n).toList := by
  unfold Place.predefined? at predefined
  split at predefined
  · exact ⟨_,(Option.some.inj predefined).symm⟩
  · split at predefined
    · exact ⟨_,(Option.some.inj predefined).symm⟩
    · cases predefined

theorem newline_not_mem_expand {m : Macros} (one : '\n' ∉ cs) (tidy : ∀ d ∈ m, '\n' ∉ d.2) :
    '\n' ∉ expand place m cs := by
  fun_induction expand place m cs with
  | case1 m cs ih =>
    simp only [mem_flatMap,not_exists,not_and]
    intro p mem
    have own : '\n' ∉ p.chars := fun inside => one (flatMap_chars_pieces cs ▸ mem_flatMap.mpr ⟨p,mem,inside⟩)
    cases p with
    | other | number => exact own
    | word name =>
      simp only
      split
      · obtain ⟨n,rfl⟩ := predefined?_eq_some ‹_›
        exact newline_not_mem_toString n
      · split
        · rename_i body known
          obtain ⟨before,after,rfl,-⟩ := lookup_eq_some_iff.mp known
          exact ih name body known (tidy (String.ofList name, body) (by simp)) fun d mem => tidy d (mem_of_mem_filter mem)
        · exact own

end OneLine

namespace LineMap

/-- The search ends between the lines that start before an offset and the others. -/
theorem rank_spec {starts : Array Nat} (sorted : starts.toList.Pairwise (· < ·)) (low high : Nat)
    (before : ∀ i < low, ∀ n ∈ starts[i]?, n ≤ offset)
    (after : ∀ i, high ≤ i → ∀ n ∈ starts[i]?, offset < n) (fits : low ≤ high)
    (bound : high ≤ starts.size) :
    rank starts offset low high ≤ high ∧ (∀ i < rank starts offset low high, ∀ n ∈ starts[i]?, n ≤ offset) ∧
      ∀ i, rank starts offset low high ≤ i → ∀ n ∈ starts[i]?, offset < n := by
  have rises {i j m n : Nat} (le : i ≤ j) (first : m ∈ starts[i]?) (second : n ∈ starts[j]?) : m ≤ n := by
    obtain ⟨_,rfl⟩ := Array.getElem?_eq_some_iff.mp first
    obtain ⟨_,rfl⟩ := Array.getElem?_eq_some_iff.mp second
    rcases Nat.eq_or_lt_of_le le with rfl | less
    · exact Nat.le_refl _
    · exact Nat.le_of_lt (pairwise_iff_getElem.mp sorted i j (by simpa) (by simpa) less)
  fun_induction rank starts offset low high with
  | case1 low high less middle reached ih =>
    obtain ⟨m,here,le⟩ := (Option.any_eq_true _ _).mp reached
    exact ih (fun i below n mem => Nat.le_trans (rises (by omega) mem here) (by simpa using le)) after (by omega)
      bound
  | case2 low high less middle reached ih =>
    obtain ⟨m,here⟩ : ∃ m, starts[middle]? = some m := ⟨_,Array.getElem?_eq_getElem (by omega)⟩
    have beyond : offset < m := by simpa [here] using reached
    obtain ⟨within,found⟩ :=
      ih before (fun i above n mem => Nat.lt_of_lt_of_le beyond (rises above here mem)) (by omega) (by omega)
    exact ⟨by omega,found⟩
  | case3 low high less =>
    obtain rfl : low = high := by omega
    exact ⟨Nat.le_refl _,before,after⟩

theorem getElem?_withFile {m : LineMap} {name : String} (known : m.files[i]? = some name)
    (file : String) : (m.withFile file).files[i]? = some name := by
  unfold withFile
  split
  · exact known
  · obtain ⟨bound,rfl⟩ := List.getElem?_eq_some_iff.mp known
    simp [getElem?_append_left,bound]

theorem getElem?_indexOf (m : LineMap) (file : String) : (m.withFile file).files[m.indexOf file]? = some file := by
  unfold withFile indexOf
  cases found : m.files.idxOf? file with
  | none =>
    have new : file ∉ m.files := by simpa using found
    simp [new]
  | some i =>
    obtain ⟨bound,same,-⟩ := findIdx?_eq_some_iff_getElem.mp found
    have here : m.files[i]? = some file := List.getElem?_eq_some_iff.mpr ⟨bound,by simpa using same⟩
    simp [mem_of_getElem? here,here]

end LineMap

/-- The text of lines, each of them ended. -/
def joined (ls : List (List Char)) : List Char := ls.flatMap (· ++ ['\n'])

theorem byteLength_joined_cons (l : List Char) (ls : List (List Char)) :
    byteLength (joined (l :: ls)) = byteLength l + 1 + byteLength (joined ls) := by
  rw [joined,flatMap_cons,byteLength_append,byteLength_append]
  rfl

theorem textLines_joined (single : ∀ l ∈ ls, '\n' ∉ l) : textLines (joined ls) = ls := by
  have first (line cs rest : List Char) (one : '\n' ∉ cs) :
      textLines.go line (cs ++ '\n' :: rest) = (line ++ cs) :: textLines.go [] rest := by
    induction cs generalizing line with
    | nil => simp [textLines.go]
    | cons c cs ih =>
      rw [cons_append,textLines.go.eq_3 _ _ _ (by grind),ih _ (by grind)]
      simp
  induction ls with
  | nil => rfl
  | cons l ls ih =>
    obtain ⟨one,single⟩ := forall_mem_cons.mp single
    rw [joined,flatMap_cons,List.append_assoc]
    exact (first [] l _ one).trans (congrArg (l :: ·) (ih single))

theorem count_joined (single : ∀ l ∈ ls, '\n' ∉ l) : (joined ls).count '\n' = ls.length := by
  induction ls with
  | nil => rfl
  | cons l ls ih =>
    obtain ⟨one,single⟩ := forall_mem_cons.mp single
    rw [joined,flatMap_cons,count_append,count_append,count_eq_zero.mpr one]
    have rest : (ls.flatMap (· ++ ['\n'])).count '\n' = ls.length := ih single
    simp [rest,Nat.add_comm]

namespace Expansion

variable {o : Nat} {ls : List (List Char)}

theorem startsFrom_concat (l : List Char) :
    startsFrom o (ls ++ [l]) = startsFrom o ls ++ [(o + byteLength (joined ls), l)] := by
  induction ls generalizing o with
  | nil => rfl
  | cons first ls ih => simp [startsFrom,ih,byteLength_joined_cons,Nat.add_assoc]

theorem map_snd_startsFrom : (startsFrom o ls).map Prod.snd = ls := by
  induction ls generalizing o with
  | nil => rfl
  | cons l ls ih => simp [startsFrom,ih]

theorem startsFrom_sorted (o : Nat) (ls : List (List Char)) :
    ((startsFrom o ls).map Prod.fst).Pairwise (· < ·) ∧ ∀ n ∈ (startsFrom o ls).map Prod.fst, o ≤ n := by
  induction ls generalizing o with
  | nil => simp [startsFrom]
  | cons l ls ih =>
    obtain ⟨sorted,after⟩ := ih (o + byteLength l + 1)
    simp only [startsFrom,map_cons,pairwise_cons,forall_mem_cons]
    exact ⟨⟨fun n mem => by have := after n mem; omega,sorted⟩,Nat.le_refl o,
      fun n mem => by have := after n mem; omega⟩

theorem exists_line (from_ : o ≤ offset) (before : offset < o + byteLength (joined ls)) :
    ∃ i start l, (startsFrom o ls)[i]? = some (start, l) ∧ start ≤ offset ∧ offset < start + byteLength l + 1 ∧
      ∀ next ∈ (startsFrom o ls)[i + 1]?, offset < next.1 := by
  induction ls generalizing o with
  | nil => exact absurd before (Nat.not_lt.mpr from_)
  | cons l ls ih =>
    rw [byteLength_joined_cons] at before
    by_cases here : offset < o + byteLength l + 1
    · refine ⟨0,o,l,rfl,from_,here,fun next follows => ?_⟩
      have later := (startsFrom_sorted (o + byteLength l + 1) ls).2 next.1
        (mem_map_of_mem (mem_of_getElem? follows))
      omega
    · obtain ⟨i,start,l',line,after,within,next⟩ := ih (Nat.not_lt.mp here) (by omega)
      exact ⟨i + 1,start,l',line,after,within,next⟩

end Expansion

def headersAt (lib : Library) : (levels : Nat) → Nested
  | 0 => none
  | levels + 1 => some fun h => expandFile lib levels h.path (some h.path) h.text

theorem expandFile_eq (lib : Library) (levels : Nat) : expandFile lib levels = processText lib (headersAt lib levels) := by
  cases levels <;> rfl

/-- How lines of a file are gone through, and the lines of the result that are made on the way. -/
inductive Passes (lib : Library) : (levels index : Nat) → (file : String) → (path : Option String) →
    List LogicalLine → State → List Made → State → Prop
  | done {levels index : Nat} {file : String} {path : Option String} {s : State} :
      Passes lib levels index file path [] s [] s
  /-- Nothing is made of the first line. -/
  | silent {levels index : Nat} {file : String} {path : Option String} {l : LogicalLine} {ls : List LogicalLine}
      {s t u : State} {ms : List Made}
      (ran : (processLine lib (headersAt lib levels) index file path l).from s = (.ok (), t))
      (same : t.text = s.text ∧ t.map = s.map) (rest : Passes lib levels index file path ls t ms u) :
      Passes lib levels index file path (l :: ls) s ms u
  | code {levels index : Nat} {file : String} {path : Option String} {l : LogicalLine} {ls : List LogicalLine}
      {s t u : State} {ms : List Made}
      (ran : (processLine lib (headersAt lib levels) index file path l).from s = (.ok (), t))
      (emits : (emitLine index ⟨file, l.number, path⟩ l.text).from s = (.ok (), t))
      (rest : Passes lib levels index file path ls t ms u) :
      Passes lib levels index file path (l :: ls) s (⟨file, l, s.macros, s.version⟩ :: ms) u
  /-- The first line puts in a header. -/
  | header {levels index : Nat} {file : String} {path : Option String} {l : LogicalLine} {ls : List LogicalLine}
      {s t u : State} {ms ms' : List Made} {quoted : Bool} {name : String} {h : Header} {log : Log}
      (ran : (processLine lib (headersAt lib (levels + 1)) index file path l).from s = (.ok (), t))
      (found : (lib.find quoted name file).found = some h)
      (inner : Passes lib levels (s.map.indexOf h.path) h.path (some h.path) (logicalLines h.text)
        { s with log := log, map := s.map.withFile h.path } ms t)
      (rest : Passes lib (levels + 1) index file path ls t ms' u) :
      Passes lib (levels + 1) index file path (l :: ls) s (ms ++ ms') u

/-- The result so far is made of these lines, and the map leads to them. -/
structure State.Mapped (s : State) (ms : List Made) : Prop where
  tidy : s.Tidy
  single : ∀ l ∈ ms.map Made.text, '\n' ∉ l
  text : s.text = joined (ms.map Made.text)
  starts : s.map.starts.toList = (Expansion.startsFrom 0 (ms.map Made.text)).map Prod.fst
  origins : s.map.origins.toList.map (fun o => (s.map.files[o.1]?, o.2)) = ms.map fun m => (some m.file, m.line.number)

def LineMap.Grows (m m' : LineMap) : Prop := ∀ (i : Nat) (name : String), m.files[i]? = some name → m'.files[i]? = some name

section Mapping

variable {lib : Library} {s t : State} {ms : List Made}

variable {path : Option String} {file : String}

theorem emitLine_mapped {index : Nat}
    (ran : (emitLine index ⟨file, l.number, path⟩ l.text).from s = (.ok (), t))
    (one : '\n' ∉ l.text) (known : s.map.files[index]? = some file) (mapped : s.Mapped ms) :
    t.Mapped (ms ++ [⟨file, l, s.macros, s.version⟩]) := by
  cases ran
  obtain ⟨tidy,single,text,starts,origins⟩ := mapped
  refine ⟨tidy,?_,?_,?_,?_⟩
  · rw [map_append,forall_mem_append]
    exact ⟨single,by simpa [Made.text] using newline_not_mem_expand one tidy⟩
  · simp [joined,text,Made.text,State.place]
  · simp [LineMap.push,starts,Expansion.startsFrom_concat,text]
  · simp [LineMap.push,origins,known]

/-- The map is right after the lines if it was right before them. -/
def Leads (lib : Library) (levels index : Nat) (file : String) (path : Option String) (ls : List LogicalLine)
    (s t : State) : Prop :=
  ∃ ms, Passes lib levels index file path ls s ms t ∧ s.map.Grows t.map ∧ ∀ ms₀, s.Mapped ms₀ → t.Mapped (ms₀ ++ ms)

theorem State.Mapped.of_same (mapped : s.Mapped ms) (tidy : t.Tidy) (text : t.text = s.text) (map : t.map = s.map) :
    t.Mapped ms := by
  obtain ⟨-,single,same,starts,origins⟩ := mapped
  exact ⟨tidy,single,text.trans same,map ▸ starts,map ▸ origins⟩

theorem State.Mapped.enter (mapped : s.Mapped ms) (file : String) (log : Log) :
    State.Mapped { s with log := log, map := s.map.withFile file } ms := by
  obtain ⟨tidy,single,text,starts,origins⟩ := mapped
  have same : (s.map.withFile file).starts = s.map.starts ∧ (s.map.withFile file).origins = s.map.origins := by
    unfold LineMap.withFile
    split <;> exact ⟨rfl,rfl⟩
  refine ⟨tidy,single,text,by rw [same.1,starts],?_⟩
  rw [same.2,← origins]
  refine map_congr_left fun o mem => ?_
  have listed := origins ▸ mem_map_of_mem mem
  obtain ⟨m,-,eq⟩ := mem_map.mp listed
  have known : s.map.files[o.1]? = some m.file := (congrArg Prod.fst eq).symm
  rw [known,LineMap.getElem?_withFile known]

theorem leads_of_lines {levels index : Nat} {ls : List LogicalLine}
    (headers : ∀ enter, headersAt lib levels = some enter → ∀ h s t, (enter h).from s = (.ok (), t) →
      Leads lib (levels - 1) (s.map.indexOf h.path) h.path (some h.path) (logicalLines h.text)
        { s with map := s.map.withFile h.path } t)
    (single : ∀ l ∈ ls, '\n' ∉ l.text) (known : s.map.files[index]? = some file)
    (ran : (ls.forM (processLine lib (headersAt lib levels) index file path)).from s = (.ok (), t)) :
    Leads lib levels index file path ls s t := by
  induction ls generalizing s with
  | nil =>
    cases ran
    exact ⟨[],.done,fun _ _ => id,fun ms mapped => by simpa using mapped⟩
  | cons l ls ih =>
    obtain ⟨⟨⟩,u,first,ran⟩ := Expanding.from_bind_eq_ok.mp ran
    obtain ⟨one,single⟩ := forall_mem_cons.mp single
    -- a line that leaves the result as it is
    have silent (tidy : s.Tidy → u.Tidy) (text : u.text = s.text) (map : u.map = s.map) :
        Leads lib levels index file path (l :: ls) s t := by
      obtain ⟨ms,rest,grows,mapped⟩ := ih single (map ▸ known) ran
      exact ⟨ms,.silent first ⟨text,map⟩ rest,map ▸ grows,
        fun ms₀ before => mapped ms₀ (before.of_same (tidy before.tidy) text map)⟩
    cases marked : l.mark? with
    | some c =>
      obtain ⟨cs,rfl,-⟩ := Conditioning.run_ok (processLine_mark marked ▸ first)
      exact silent id rfl rfl
    | none =>
      cases active : s.isActive with
      | false =>
        cases (processLine_skipped marked active).symm.trans first
        exact silent id rfl rfl
      | true =>
        rcases processLine_active marked active with same | same | kept
        · obtain ⟨log,rfl | ⟨enter,quoted,name,h,entered,found,ran'⟩⟩ :=
            includeHeader_ok (same.symm.trans first)
          · exact silent id rfl rfl
          · obtain ⟨ms,inner,grown,within⟩ := headers enter entered h _ _ ran'
            have grows₁ : s.map.Grows u.map := fun i name here => grown i name (LineMap.getElem?_withFile here _)
            obtain ⟨ms',rest,grows,mapped⟩ := ih single (grows₁ _ _ known) ran
            cases levels with
            | zero => cases entered
            | succ levels =>
              refine ⟨ms ++ ms',.header first found inner rest,fun i name here => grows i name (grows₁ i name here),
                fun ms₀ before => ?_⟩
              simpa using mapped _ (within _ (before.enter h.path log))
        · have emits := same.symm.trans first
          obtain ⟨ms,rest,grows,mapped⟩ := ih single (by cases emits; exact known) ran
          refine ⟨_,.code first emits rest,?_,fun ms₀ before => ?_⟩
          · cases emits
            exact grows
          · simpa using mapped _ (emitLine_mapped emits one known before)
        · rw [first] at kept
          exact silent (kept.tidy one) kept.text kept.map

theorem leads_of_expandFile (levels : Nat) {text : List Char}
    (ran : (expandFile lib levels file path text).from s = (.ok (), t)) :
    Leads lib levels (s.map.indexOf file) file path (logicalLines text) { s with map := s.map.withFile file } t := by
  induction levels generalizing s t file path text with
  | zero =>
    rw [expandFile_eq] at ran
    exact leads_of_lines (fun enter entered => by cases entered)
      (fun l mem => newline_not_mem_linesFrom (by simp) mem) (s.map.getElem?_indexOf file) (processText_ok ran).1
  | succ levels ih =>
    rw [expandFile_eq] at ran
    refine leads_of_lines (fun enter entered h s t ran => ?_)
      (fun l mem => newline_not_mem_linesFrom (by simp) mem) (s.map.getElem?_indexOf file) (processText_ok ran).1
    cases entered
    exact ih ran

theorem State.Mapped.locate (mapped : s.Mapped ms) {start : Nat} {m : Made} (here : ms[i]? = some m)
    (line : (Expansion.startsFrom 0 (ms.map Made.text))[i]? = some (start, m.text))
    (after : start ≤ offset)
    (next : ∀ n ∈ (Expansion.startsFrom 0 (ms.map Made.text))[i + 1]?, offset < n.1) :
    s.map.locate offset = (m.file, m.line.number) := by
  have starts (j : Nat) : s.map.starts[j]? = ((Expansion.startsFrom 0 (ms.map Made.text))[j]?).map Prod.fst := by
    rw [← Array.getElem?_toList,mapped.starts,getElem?_map]
  obtain ⟨fits,before,beyond⟩ := LineMap.rank_spec (mapped.starts ▸ (Expansion.startsFrom_sorted 0 _).1) 0
    s.map.starts.size (fun _ less => absurd less (Nat.not_lt_zero _))
    (fun j above n mem => by simp [Array.getElem?_eq_none above] at mem) (Nat.zero_le _) (Nat.le_refl _)
  have found : LineMap.rank s.map.starts offset 0 s.map.starts.size = i + 1 := by
    generalize LineMap.rank s.map.starts offset 0 s.map.starts.size = r at fits before beyond
    rcases Nat.lt_trichotomy r (i + 1) with less | same | more
    · have := beyond i (by omega) start (by rw [starts,line]; rfl)
      omega
    · exact same
    · obtain ⟨n,entry⟩ : ∃ n, s.map.starts[i + 1]? = some n := ⟨_,Array.getElem?_eq_getElem (by omega)⟩
      have reached := before (i + 1) more n entry
      rw [starts,Option.map_eq_some_iff] at entry
      obtain ⟨p,at_,rfl⟩ := entry
      have := next p at_
      omega
  have origin : (s.map.origins.toList.map fun o => (s.map.files[o.1]?, o.2))[i]? = some (some m.file, m.line.number) := by
    rw [mapped.origins,getElem?_map,here]
    rfl
  rw [getElem?_map,Option.map_eq_some_iff] at origin
  obtain ⟨o,entry,eq⟩ := origin
  simp only [Prod.mk.injEq] at eq
  rw [Array.getElem?_toList] at entry
  simp [LineMap.locate,found,entry,eq.1,eq.2]

end Mapping

/-- What the preamble and the source are made into. -/
def Produced (lib : Library) (preamble source file : String) (ms : List Made) : Prop :=
  ∃ ms₁ ms₂ s t, ms = ms₁ ++ ms₂ ∧
    Passes lib maxIncludeDepth 0 preambleName none (logicalLines preamble.toList) { map := ⟨[preambleName], #[], #[]⟩ }
      ms₁ s ∧
    Passes lib maxIncludeDepth (s.map.indexOf file) file none (logicalLines source.toList)
      { s with codeSeen := false, map := s.map.withFile file } ms₂ t

theorem expandSource_mapped {lib : Library} {preamble source file : String} {s : State}
    (ran : (expandSource lib preamble source file).from {} = (.ok (), s)) :
    ∃ ms, Produced lib preamble source file ms ∧ s.Mapped ms := by
  obtain ⟨⟨⟩,t,first,ran⟩ := Expanding.from_bind_eq_ok.mp ran
  rw [Expanding.from_modify_bind] at ran
  obtain ⟨ms₁,passes₁,-,mapped₁⟩ := leads_of_expandFile maxIncludeDepth first
  obtain ⟨ms₂,passes₂,-,mapped₂⟩ := leads_of_expandFile maxIncludeDepth ran
  refine ⟨_,⟨ms₁,ms₂,t,s,rfl,passes₁,passes₂⟩,mapped₂ _ ?_⟩
  have empty : State.Mapped {} [] := ⟨by simp [State.Tidy],by simp,rfl,rfl,rfl⟩
  have middle := mapped₁ [] (empty.enter preambleName [])
  exact (middle.of_same (t := { t with codeSeen := false }) middle.tidy rfl rfl).enter file t.log

/-- The map has an entry for every line of the text, which starts where the line does, and every offset of the text
leads to the file and to the line that the line around it was made of. -/
theorem run_line_map {lib : Library} {preamble source file : String} {e : Expansion} {log : Log}
    (ran : run lib preamble source file = (.ok e, log)) :
    ∃ ms, Produced lib preamble source file ms ∧ e.lines = ms.map Made.text ∧
      e.map.starts.size = e.chars.count '\n' ∧
      e.map.starts.toList = (Expansion.startsFrom 0 e.lines).map Prod.fst ∧ e.map.starts.toList.Pairwise (· < ·) ∧
      ∀ offset < byteLength e.chars, ∃ (i start : Nat) (m : Made),
        (Expansion.startsFrom 0 e.lines)[i]? = some (start, m.text) ∧ ms[i]? = some m ∧ start ≤ offset ∧
        offset < start + byteLength m.text + 1 ∧ e.locate offset = (m.file, m.line.number) := by
  generalize outcome : (expandSource lib preamble source file).run.run {} = result
  rw [run,outcome] at ran
  obtain ⟨_ | ⟨⟩,s⟩ := result
  · cases ran
  cases ran
  obtain ⟨ms,produced,mapped⟩ := expandSource_mapped outcome
  have lines : textLines s.text = ms.map Made.text := by rw [mapped.text,textLines_joined mapped.single]
  refine ⟨ms,produced,lines,?_,?_,?_,fun offset before => ?_⟩
  · rw [← Array.length_toList,mapped.starts,mapped.text,count_joined mapped.single,length_map,
      ← length_map Prod.snd,Expansion.map_snd_startsFrom]
  · exact mapped.starts.trans (by rw [Expansion.lines,lines])
  · exact mapped.starts ▸ (Expansion.startsFrom_sorted 0 _).1
  · rw [mapped.text] at before
    obtain ⟨i,start,l,line,after,within,next⟩ := Expansion.exists_line (Nat.zero_le _) (by simpa using before)
    have own : ((Expansion.startsFrom 0 (ms.map Made.text)).map Prod.snd)[i]? = some l := by
      rw [getElem?_map,line]
      rfl
    rw [Expansion.map_snd_startsFrom,getElem?_map,Option.map_eq_some_iff] at own
    obtain ⟨m,here,rfl⟩ := own
    refine ⟨i,start,m,?_,here,after,within,mapped.locate here line after next⟩
    rw [Expansion.lines,lines,line]

/-- A header that is put in twice, with a line between that is continued. -/
def repeated : HeaderStore where
  files := [("h", "a")]

/-- Both times the line of the header is found, and the line between is found where it starts. -/
theorem repeated_line_map : ∃ e log, run repeated.library "" "#include \"h\"\nb \\\nc\n#include \"h\"" "f" = (.ok e, log) ∧
    e.map.starts.size = 3 ∧ [0, 3, 7].map e.locate = [("h", 1), ("f", 2), ("h", 1)] ∧
    ∃ ms, Produced repeated.library "" "#include \"h\"\nb \\\nc\n#include \"h\"" "f" ms ∧ ms.length = 3 := by
  have ran : run repeated.library "" "#include \"h\"\nb \\\nc\n#include \"h\"" "f" =
      (.ok ⟨"a\nb c\na\n".toList,⟨[preambleName,"f","h"],#[0,2,6],#[(2, 1),(1, 2),(2, 1)]⟩,100,true,[]⟩, []) := by
    cbv
  obtain ⟨ms,produced,lines,size,-⟩ := run_line_map ran
  refine ⟨_,_,ran,size,by cbv,ms,produced,?_⟩
  have length := congrArg List.length lines
  rw [length_map] at length
  rw [← length]
  decide

end Shading.Source
