import Shading.Artifact
import Shading.Proofs.Outcome

/-! The artifact format is exact: a byte string is accepted if and only if it is the encoding of an
artifact, and then of the one that is read. Every reader takes from the front of its bytes what the
matching writer puts there and leaves the rest, so both directions are one equivalence per field. -/
namespace Shading.Artifact
open List Text

variable {bs rest : List UInt8} {f : Fault} {u : Uniform} {us : UniformTable}
  {parts : List (List UInt8)} {n : Nat} {a : Artifact} {count : UInt16}

theorem readByte_eq_ok {b : UInt8} : readByte bs = .ok (b, rest) ↔ bs = b :: rest := by
  cases bs <;> simp [readByte]

theorem readHalf_eq_ok {h : UInt16} :
    readHalf bs = .ok (h, rest) ↔ bs = Bytes.ofHalf h ++ rest := by
  constructor
  · intro read
    match bs, read with
    | a :: b :: tail, read =>
      simp only [readHalf,Except.ok.injEq,Prod.mk.injEq] at read
      obtain ⟨rfl,rfl⟩ := read
      simp [Bytes.ofHalf_half]
  · rintro rfl
    simp [Bytes.ofHalf,readHalf,Bytes.half_digits]

theorem readWord_eq_ok {w : UInt32} :
    readWord bs = .ok (w, rest) ↔ bs = Bytes.ofWord w ++ rest := by
  constructor
  · intro read
    match bs, read with
    | a :: b :: c :: d :: tail, read =>
      simp only [readWord,Except.ok.injEq,Prod.mk.injEq] at read
      obtain ⟨rfl,rfl⟩ := read
      simp [Bytes.ofWord_word]
  · rintro rfl
    simp [Bytes.ofWord,readWord,Bytes.word_digits]

theorem readText_eq_ok {length : Nat} {s : String} :
    readText length f bs = .ok (s, rest) ↔ (utf8 s).length = length ∧ bs = utf8 s ++ rest := by
  constructor
  · grind [readText,utf8_of_ofUtf8?,take_append_drop]
  · rintro ⟨rfl,rfl⟩
    simp [readText]

theorem encodeUniform_eq_ok : encodeUniform u = .ok bs ↔ (utf8 u.name).length < 256 ∧
      bs = UInt8.ofNat (utf8 u.name).length :: utf8 u.name ++ [UInt8.ofNat u.kind.code] ++
        Bytes.ofWords [u.count, u.register, u.registers, u.texComponent, u.texDimension] := by
  unfold encodeUniform
  by_cases short : (utf8 u.name).length < 256
  · simp [short,eq_comm]
  · simp [short]

theorem readUniform_eq_ok :
    readUniform bs = .ok (u, rest) ↔ ∃ used, encodeUniform u = .ok used ∧ bs = used ++ rest := by
  constructor
  · intro read
    simp only [readUniform,Except.bind_eq_ok,Prod.exists,readByte_eq_ok,readText_eq_ok] at read
    obtain ⟨length,_,rfl,name,_,⟨sized,rfl⟩,code,tail,rfl,read⟩ := read
    split at read
    · rename_i kind known
      simp only [Except.bind_eq_ok,Prod.exists,readWord_eq_ok,Except.pure_eq_ok,Prod.mk.injEq] at read
      obtain ⟨count,_,rfl,register,_,rfl,registers,_,rfl,component,_,rfl,dimension,_,
        rfl,rfl,rfl⟩ := read
      have short : (utf8 name).length < 256 := sized ▸ length.toNat_lt
      refine ⟨_,encodeUniform_eq_ok.mpr ⟨short,rfl⟩,?_⟩
      simp [sized,UniformKind.code_of_ofCode? known,Bytes.ofWords]
    · contradiction
  · rintro ⟨used,encoded,rfl⟩
    obtain ⟨short,rfl⟩ := encodeUniform_eq_ok.mp encoded
    have kindCode : (UInt8.ofNat u.kind.code).toNat = u.kind.code := by
      simpa using u.kind.code_lt
    have nameLength : (UInt8.ofNat (utf8 u.name).length).toNat = (utf8 u.name).length := by
      simpa using short
    simp only [readUniform,Except.bind_eq_ok,Prod.exists,readByte_eq_ok,readText_eq_ok,
      cons_append,List.append_assoc,nil_append]
    refine ⟨_,_,rfl,u.name,_,⟨nameLength.symm,rfl⟩,_,_,rfl,?_⟩
    simp only [kindCode,UniformKind.ofCode?_code,Except.bind_eq_ok,Prod.exists,readWord_eq_ok,
      Except.pure_eq_ok,Bytes.ofWords,flatMap_cons,flatMap_nil,List.append_assoc,append_nil]
    exact ⟨_,_,rfl,_,_,rfl,_,_,rfl,_,_,rfl,_,_,rfl,rfl⟩

theorem mapM_encodeUniform_eq_ok : (u :: us).mapM encodeUniform = .ok parts ↔
      ∃ bs more, encodeUniform u = .ok bs ∧ us.mapM encodeUniform = .ok more ∧ parts = bs :: more := by
  grind [Except.bind_eq_ok,Except.pure_eq_ok]

theorem readUniforms_eq_ok : readUniforms n bs = .ok (us, rest) ↔
      us.length = n ∧ ∃ parts, us.mapM encodeUniform = .ok parts ∧ bs = parts.flatten ++ rest := by
  induction n generalizing bs us rest with
  | zero =>
    simp only [readUniforms,Except.ok.injEq,Prod.mk.injEq,length_eq_zero_iff]
    simp_all
  | succ n ih =>
    simp only [readUniforms,Except.bind_eq_ok,Prod.exists,readUniform_eq_ok,ih,
      Except.pure_eq_ok,Prod.mk.injEq]
    constructor
    · rintro ⟨u,_,⟨first,encoded,rfl⟩,more,_,⟨rfl,parts,encodes,rfl⟩,rfl,rfl⟩
      refine ⟨rfl,first :: parts,?_,by simp⟩
      exact mapM_encodeUniform_eq_ok.mpr ⟨first,parts,encoded,encodes,rfl⟩
    · rintro ⟨sized,parts,encodes,rfl⟩
      obtain ⟨u,us,rfl⟩ := exists_cons_of_length_eq_add_one sized
      obtain ⟨first,more,encoded,others,rfl⟩ := mapM_encodeUniform_eq_ok.mp encodes
      simp_all

/-- What the three lengths of the format have room for. -/
structure Fits (a : Artifact) : Prop where
  count : a.uniforms.length ≤ 65535
  names : ∀ u ∈ a.uniforms, u.name.utf8ByteSize ≤ 255
  source : a.source.utf8ByteSize < 2 ^ 32

theorem mapM_encodeUniform_ok_iff :
    (∃ parts, us.mapM encodeUniform = .ok parts) ↔ ∀ u ∈ us, u.name.utf8ByteSize ≤ 255 := by
  induction us with
  | nil => simp
  | cons u us ih =>
    have short : (∃ bs, encodeUniform u = .ok bs) ↔ u.name.utf8ByteSize ≤ 255 := by
      simp only [encodeUniform_eq_ok,exists_and_left,exists_eq,and_true,length_utf8]
      omega
    rw [forall_mem_cons,← ih,← short]
    constructor
    · grind [mapM_encodeUniform_eq_ok]
    · rintro ⟨⟨bs,first⟩,more,others⟩
      exact ⟨bs :: more,mapM_encodeUniform_eq_ok.mpr ⟨bs,more,first,others,rfl⟩⟩

theorem encode_eq_ok :
    encode a = .ok bs ↔ a.uniforms.length < 2 ^ 16 ∧ (utf8 a.source).length < 2 ^ 32 ∧
      ∃ parts, a.uniforms.mapM encodeUniform = .ok parts ∧
        bs = Bytes.ofHalf (.ofNat a.uniforms.length) ++ parts.flatten ++
          Bytes.ofWord (.ofNat (utf8 a.source).length) ++ utf8 a.source ++ [0] := by
  simp only [encode,Except.ite_throw_eq_ok,Except.bind_eq_ok,Except.pure_eq_ok,Nat.not_le,
    eq_comm (b := bs)]
  exact Iff.rfl

theorem encode_ok_iff_fits (a : Artifact) : (∃ bs, encode a = .ok bs) ↔ a.Fits := by
  simp only [encode_eq_ok]
  constructor
  · rintro ⟨bs,few,small,parts,encodes,-⟩
    exact ⟨by omega,mapM_encodeUniform_ok_iff.mp ⟨parts,encodes⟩,length_utf8 _ ▸ small⟩
  · intro fits
    obtain ⟨parts,encodes⟩ := mapM_encodeUniform_ok_iff.mpr fits.names
    have few := fits.count
    exact ⟨_,by omega,length_utf8 _ ▸ fits.source,parts,encodes,rfl⟩

theorem decode_eq_ok_iff : decode bs = .ok a ↔ encode a = .ok bs := by
  simp only [decode,Except.bind_eq_ok,Prod.exists,readHalf_eq_ok,readUniforms_eq_ok,
    readWord_eq_ok,readText_eq_ok,readByte_eq_ok,Except.ite_throw_eq_ok,Except.pure_eq_ok]
  constructor
  · rintro ⟨count,_,rfl,us,_,⟨counted,parts,encodes,rfl⟩,length,_,rfl,source,_,
      ⟨sized,rfl⟩,final,rest,rfl,zero,nothing,rfl⟩
    obtain rfl : final = 0 := by simpa using zero
    obtain rfl : rest = [] := by simpa using nothing
    refine encode_eq_ok.mpr ⟨counted ▸ count.toNat_lt,sized ▸ length.toNat_lt,parts,encodes,?_⟩
    simp [counted,sized]
  · grind [encode_eq_ok,UInt16.toNat_ofNat_of_lt',UInt32.toNat_ofNat_of_lt']

/-! What is no encoding: each reader is run on bytes whose front it can read. -/

def Rejected (bs : List UInt8) : Prop := ∃ f, decode bs = .error f

theorem readHalf_append (h : UInt16) (rest : List UInt8) :
    readHalf (Bytes.ofHalf h ++ rest) = .ok (h, rest) := readHalf_eq_ok.mpr rfl

theorem readWord_append (w : UInt32) (rest : List UInt8) :
    readWord (Bytes.ofWord w ++ rest) = .ok (w, rest) := readWord_eq_ok.mpr rfl

theorem readText_append (s : String) (f : Fault) (rest : List UInt8) :
    readText (utf8 s).length f (utf8 s ++ rest) = .ok (s, rest) := readText_eq_ok.mpr ⟨rfl,rfl⟩

theorem readText_invalid {bytes : List UInt8} (bad : ofUtf8? bytes = none) (f : Fault)
    (rest : List UInt8) : readText bytes.length f (bytes ++ rest) = .error f := by
  have enough : ¬(bytes ++ rest).length < bytes.length := by simp
  rw [readText,if_neg enough,take_left,bad]

theorem readUniforms_append (encodes : us.mapM encodeUniform = .ok parts) (more : Nat)
    (rest : List UInt8) : readUniforms (us.length + more) (parts.flatten ++ rest) =
      (readUniforms more rest).map fun (others, tail) => (us ++ others, tail) := by
  induction us generalizing parts with
  | nil =>
    obtain rfl : [] = parts := by simpa using encodes
    cases h : readUniforms more rest <;> simp [Except.map,h]
  | cons u us ih =>
    obtain ⟨first,others,encoded,next,rfl⟩ := mapM_encodeUniform_eq_ok.mp encodes
    have read : readUniform (first ++ (others.flatten ++ rest)) = .ok (u, others.flatten ++ rest) :=
      readUniform_eq_ok.mpr ⟨first,encoded,rfl⟩
    rw [length_cons,Nat.add_right_comm,flatten_cons,List.append_assoc]
    simp only [readUniforms,read,Except.ok_bind,ih next]
    cases readUniforms more rest <;> rfl

theorem decode_append {tail : List UInt8} (encoded : encode a = .ok bs) (more : tail ≠ []) :
    decode (bs ++ tail) = .error (.trailing tail.length) := by
  obtain ⟨few,small,parts,encodes,rfl⟩ := encode_eq_ok.mp encoded
  have table := readUniforms_append encodes 0
  simp only [Nat.add_zero,readUniforms,Except.map,append_nil] at table
  simp only [decode,List.append_assoc,readHalf_append,Except.ok_bind,
    UInt16.toNat_ofNat_of_lt' few,table,readWord_append,UInt32.toNat_ofNat_of_lt' small,
    readText_append,readByte,cons_append,nil_append]
  rw [if_neg (by simp),if_pos (by simpa using more)]
  rfl

theorem rejected_take (read : decode bs = .ok a) (cut : n < bs.length) : Rejected (bs.take n) := by
  cases shorter : decode (bs.take n) with
  | error f => exact ⟨f,shorter⟩
  | ok b =>
    grind [decode_append,decode_eq_ok_iff,take_append_drop]

theorem rejected_of_last (last : bs.getLast? ≠ some 0) : Rejected bs := by
  cases read : decode bs with
  | error f => exact ⟨f,read⟩
  | ok a =>
    obtain ⟨_,_,parts,_,rfl⟩ := encode_eq_ok.mp (decode_eq_ok_iff.mp read)
    simp at last

def openTable (count : UInt16) (parts : List (List UInt8)) : List UInt8 :=
  Bytes.ofHalf count ++ parts.flatten

theorem decode_openTable (encodes : us.mapM encodeUniform = .ok parts)
    (more : us.length < count.toNat) (refused : readUniform rest = .error f) :
    decode (openTable count parts ++ rest) = .error f := by
  obtain ⟨n,announced⟩ := Nat.exists_eq_add_of_lt more
  have table : readUniforms count.toNat (parts.flatten ++ rest) = .error f := by
    rw [announced,Nat.add_assoc,readUniforms_append encodes]
    simp [readUniforms,refused,Except.map]
  simp only [decode,openTable,List.append_assoc,readHalf_append,Except.ok_bind,table,
    Except.error_bind]

theorem readUniform_unknown {name : String} (short : name.utf8ByteSize ≤ 255) {code : UInt8}
    (unknown : UniformKind.ofCode? code.toNat = none) (rest : List UInt8) :
    readUniform (UInt8.ofNat (utf8 name).length :: utf8 name ++ code :: rest) =
      .error (.unknownKind code.toNat) := by
  have length : (UInt8.ofNat (utf8 name).length).toNat = (utf8 name).length :=
    UInt8.toNat_ofNat_of_lt' (by rw [length_utf8]; exact Nat.lt_succ_of_le short)
  simp only [readUniform,readByte,cons_append,Except.ok_bind,length,readText_append,unknown]
  rfl

theorem readUniform_invalid {name : List UInt8} (short : name.length ≤ 255)
    (bad : ofUtf8? name = none) (rest : List UInt8) :
    readUniform (UInt8.ofNat name.length :: name ++ rest) = .error .nameNotText := by
  have length : (UInt8.ofNat name.length).toNat = name.length :=
    UInt8.toNat_ofNat_of_lt' (Nat.lt_succ_of_le short)
  simp only [readUniform,readByte,cons_append,Except.ok_bind,length,
    readText_invalid bad,Except.error_bind]

theorem decode_invalidSource (encodes : us.mapM encodeUniform = .ok parts)
    (all : us.length = count.toNat) {source : List UInt8} (small : source.length < 2 ^ 32)
    (bad : ofUtf8? source = none) (rest : List UInt8) :
    decode (openTable count parts ++ Bytes.ofWord (.ofNat source.length) ++ source ++ rest) =
      .error .sourceNotText := by
  have table := readUniforms_append encodes 0
  simp only [Nat.add_zero,readUniforms,Except.map,append_nil] at table
  simp only [decode,openTable,List.append_assoc,readHalf_append,Except.ok_bind,← all,table,
    readWord_append,UInt32.toNat_ofNat_of_lt' small,readText_invalid bad,Except.error_bind]

/-- The format is exact. The encoder works for all artifacts within the three limits and for no
others; reading and writing are inverse to each other where they work at all; so what is accepted
cannot be cut or continued, and what has a wrong end, an unknown kind or ill-formed text anywhere is
refused. -/
theorem format_exact (a : Artifact) (bs : List UInt8) : ((∃ bs, encode a = .ok bs) ↔ a.Fits) ∧
    (encode a = .ok bs ↔ decode bs = .ok a) ∧
    ((∃ a, decode bs = .ok a) ↔ ∃ a, encode a = .ok bs) ∧
    (decode bs = .ok a → (∀ n < bs.length, Rejected (bs.take n)) ∧
      ∀ tail ≠ [], Rejected (bs ++ tail)) ∧
    (bs.getLast? ≠ some 0 → Rejected bs) ∧
    (∀ (us : UniformTable) (parts : List (List UInt8)) (count : UInt16),
      us.mapM encodeUniform = .ok parts →
      (us.length < count.toNat →
        (∀ (name : String) (code : UInt8) rest, name.utf8ByteSize ≤ 255 → UniformKind.ofCode? code.toNat = none →
          Rejected (openTable count parts ++
            (UInt8.ofNat (utf8 name).length :: utf8 name ++ code :: rest))) ∧
        ∀ (name : List UInt8) rest, name.length ≤ 255 → ofUtf8? name = none →
          Rejected (openTable count parts ++ (UInt8.ofNat name.length :: name ++ rest))) ∧
      (us.length = count.toNat →
        ∀ (source : List UInt8) rest, source.length < 2 ^ 32 → ofUtf8? source = none →
          Rejected (openTable count parts ++ Bytes.ofWord (.ofNat source.length) ++ source ++
            rest))) := by
  refine ⟨encode_ok_iff_fits a,decode_eq_ok_iff.symm,by simp only [decode_eq_ok_iff],?_,
    rejected_of_last,?_⟩
  · intro read
    exact ⟨fun n cut => rejected_take read cut,
      fun tail more => ⟨_,decode_append (decode_eq_ok_iff.mp read) more⟩⟩
  · intro us parts count encodes
    refine ⟨fun more => ⟨?_,?_⟩,?_⟩
    · intro name code rest short unknown
      exact ⟨_,decode_openTable encodes more (readUniform_unknown short unknown rest)⟩
    · intro name rest short bad
      exact ⟨_,decode_openTable encodes more (readUniform_invalid short bad rest)⟩
    · intro all source rest small bad
      exact ⟨_,decode_invalidSource encodes all small bad rest⟩

end Shading.Artifact
