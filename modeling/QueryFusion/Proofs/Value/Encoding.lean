import QueryFusion.Proofs.Engine.Grouping

/-!
# Encodings are unique

Where an encoding stands in front of other bytes, both the value and the bytes after it are determined.
Numbers have a fixed width, texts, lists, keys and structures tell their length in front, and a length
tells where it ends. So different values have different encodings, and equality by encoding is equality.
Doubles are left out: a whole one is encoded as an integer.
-/

namespace QueryFusion

/-- What is written in front of other bytes is determined by all the bytes, and so is what follows. -/
def SelfDelimiting {α : Type} (write : α → List UInt8) : Prop :=
  ∀ a b s t, write a ++ s = write b ++ t → a = b ∧ s = t

namespace Digest

/-! ## Numbers and texts -/

theorem littleEndian_mod : ∀ {count : Nat} {v w : UInt64},
    littleEndian count v = littleEndian count w → v.toNat % 256 ^ count = w.toNat % 256 ^ count
  | 0, _, _, _ => by rw [Nat.pow_zero, Nat.mod_one, Nat.mod_one]
  | count + 1, v, w, same => by
    obtain ⟨low, rest⟩ := List.cons.inj same
    have high := littleEndian_mod rest
    have low' := congrArg UInt8.toNat low
    have byte (w : UInt64) : (w >>> 8).toNat = w.toNat / 256 :=
      (UInt64.toNat_shiftRight w 8).trans (Nat.shiftRight_eq_div_pow _ 8)
    rw [byte, byte] at high
    rw [UInt64.toNat_toUInt8, UInt64.toNat_toUInt8] at low'
    rw [Nat.pow_succ', Nat.mod_mul, Nat.mod_mul, high]
    exact congrArg (· + _) low'

theorem length_littleEndian : ∀ (count : Nat) (w : UInt64), (littleEndian count w).length = count
  | 0, _ => rfl
  | count + 1, w => congrArg (· + 1) (length_littleEndian count (w >>> 8))

theorem selfDelimiting_word : SelfDelimiting (bigEndian 8) := by
  intro v w s t same
  unfold bigEndian at same
  obtain ⟨words, rests⟩ := List.append_inj same (by simp only [List.length_reverse, length_littleEndian])
  have digits := littleEndian_mod (List.reverse_inj.mp words)
  rw [show 256 ^ 8 = 2 ^ 64 by decide, Nat.mod_eq_of_lt v.toNat_lt, Nat.mod_eq_of_lt w.toNat_lt] at digits
  exact ⟨UInt64.toNat_inj.mp digits, rests⟩

/-- Only the last byte of a length is below 128. -/
theorem selfDelimiting_varint : SelfDelimiting varint := by
  intro m
  fun_induction varint m with
  | case1 m small =>
    intro n s t same
    rw [varint] at same
    split at same
    · next small' =>
      obtain ⟨bytes, rests⟩ := List.cons.inj same
      have numbers := congrArg UInt8.toNat bytes
      simp only [Nat.toUInt8, UInt8.toNat_ofNat'] at numbers
      exact ⟨by omega, rests⟩
    · have numbers := congrArg UInt8.toNat (List.cons.inj same).1
      simp only [Nat.toUInt8, UInt8.toNat_ofNat'] at numbers
      omega
  | case2 m large ih =>
    intro n s t same
    rw [varint.eq_1 n] at same
    split at same
    · have numbers := congrArg UInt8.toNat (List.cons.inj same).1
      simp only [Nat.toUInt8, UInt8.toNat_ofNat'] at numbers
      omega
    · obtain ⟨bytes, rest⟩ := List.cons.inj same
      have numbers := congrArg UInt8.toNat bytes
      simp only [Nat.toUInt8, UInt8.toNat_ofNat'] at numbers
      obtain ⟨high, rests⟩ := ih _ s t rest
      exact ⟨by omega, rests⟩

theorem toList_loop (bytes : ByteArray) (i : Nat) (read : List UInt8) :
    ByteArray.toList.loop bytes i read = read.reverse ++ bytes.data.toList.drop i := by
  fun_induction ByteArray.toList.loop bytes i read with
  | case1 i read inside ih =>
    have here : i < bytes.data.toList.length := inside
    rw [ih, List.drop_eq_getElem_cons here, List.reverse_cons, List.append_assoc]
    simp [ByteArray.get!, getElem!_pos bytes.data i inside]
  | case2 i read outside =>
    have late : bytes.data.toList.length ≤ i := Nat.not_lt.mp outside
    rw [List.drop_eq_nil_of_le late, List.append_nil]

theorem textBytes_inj {s t : String} (same : textBytes s = textBytes t) : s = t := by
  unfold textBytes ByteArray.toList at same
  rw [toList_loop, toList_loop] at same
  exact String.toByteArray_inj.mp (ByteArray.ext (Array.toList_inj.mp same))

end Digest

namespace Value

variable {a b : Value} {s t : List UInt8}

theorem selfDelimiting_int : SelfDelimiting encodeInt := by
  intro m n s t same
  obtain ⟨words, rests⟩ := Digest.selfDelimiting_word _ _ s t (List.cons.inj same).2
  exact ⟨Int64.toBitVec_inj.mp (congrArg UInt64.toBitVec words), rests⟩

/-- Two contents of one form, each behind its length. -/
theorem sized_inj {letter : UInt8} {m n : Nat} {first second : List UInt8}
    (same : letter :: Digest.varint m ++ first ++ s = letter :: Digest.varint n ++ second ++ t) :
    m = n ∧ first ++ s = second ++ t := by
  simp only [List.cons_append, List.append_assoc, List.cons.injEq, true_and] at same
  exact Digest.selfDelimiting_varint m n _ _ same

theorem selfDelimiting_string : SelfDelimiting encodeString := by
  intro x y s t same
  obtain ⟨lengths, texts⟩ := sized_inj same
  obtain ⟨bytes, rests⟩ := List.append_inj texts lengths
  exact ⟨Digest.textBytes_inj bytes, rests⟩

/-! ## Values -/

/-- A value without doubles, made of plain forms and composite keys. -/
inductive IsDiscrete : Value → Prop
  | null : IsDiscrete null
  | missing : IsDiscrete missing
  | bool (b : Bool) : IsDiscrete (bool b)
  | int (n : Int64) : IsDiscrete (int n)
  | string (s : String) : IsDiscrete (string s)
  | list (vs : List Value) (each : ∀ v ∈ vs, IsDiscrete v) : IsDiscrete (list vs)
  | key (vs : List Value) (each : ∀ v ∈ vs, IsDiscrete v) : IsDiscrete (key vs)
  | struct (fields : List (String × Value)) (each : ∀ field ∈ fields, IsDiscrete field.2) :
      IsDiscrete (struct fields)

/-- The letter of a value's form; the two booleans have one form. -/
def form : Value → Nat
  | null => 110
  | missing => 120
  | bool _ => 102
  | int _ => 105
  | double _ => 100
  | string _ => 115
  | list _ => 108
  | key _ => 107
  | struct _ => 109
  | handle _ | raw _ => 63

theorem IsDiscrete.form_eq (discrete : a.IsDiscrete) (others : b.IsDiscrete)
    (same : a.encode ++ s = b.encode ++ t) : a.form = b.form := by
  have head {v : Value} (discrete : v.IsDiscrete) : ∃ letter rest, v.encode = letter :: rest ∧
      v.form = if letter = 116 then 102 else letter.toNat := by
    cases discrete with
    | bool b => cases b <;> exact ⟨_, _, rfl, rfl⟩
    | _ => exact ⟨_, _, rfl, rfl⟩
  obtain ⟨letter, _, first, isForm⟩ := head discrete
  obtain ⟨_, _, second, isForm'⟩ := head others
  rw [first, second] at same
  rw [isForm, isForm', (List.cons.inj same).1]

/-- The encoding of a value is told apart from those of values of its form in front of any bytes. -/
def Delimited (a : Value) : Prop :=
  ∀ b s t, b.IsDiscrete → a.encode ++ s = b.encode ++ t → a.form = b.form → a = b ∧ s = t

theorem delimited_all : ∀ {as bs : List Value} {s t : List UInt8},
    (∀ a ∈ as, a.IsDiscrete ∧ a.Delimited) → (∀ b ∈ bs, b.IsDiscrete) → as.length = bs.length →
    encodeAll as ++ s = encodeAll bs ++ t → as = bs ∧ s = t
  | [], [], _, _, _, _, _, same => ⟨rfl, same⟩
  | a :: as, b :: bs, s, t, each, discrete, lengths, same => by
    rw [encodeAll, encodeAll, List.append_assoc, List.append_assoc] at same
    obtain ⟨⟨first, delimited⟩, firsts⟩ := List.forall_mem_cons.mp each
    obtain ⟨second, seconds⟩ := List.forall_mem_cons.mp discrete
    obtain ⟨rfl, rest⟩ := delimited b _ _ second same (first.form_eq second same)
    obtain ⟨rfl, rests⟩ := delimited_all firsts seconds (Nat.succ.inj lengths) rest
    exact ⟨rfl, rests⟩

theorem delimited_fields : ∀ {as bs : List (String × Value)} {s t : List UInt8},
    (∀ field ∈ as, field.2.IsDiscrete ∧ field.2.Delimited) → (∀ field ∈ bs, field.2.IsDiscrete) →
    as.length = bs.length → encodeFields as ++ s = encodeFields bs ++ t → as = bs ∧ s = t
  | [], [], _, _, _, _, _, same => ⟨rfl, same⟩
  | (x, a) :: as, (y, b) :: bs, s, t, each, discrete, lengths, same => by
    rw [encodeFields, encodeFields, List.append_assoc, List.append_assoc, List.append_assoc,
      List.append_assoc] at same
    obtain ⟨rfl, rest⟩ := selfDelimiting_string x y _ _ same
    obtain ⟨⟨first, delimited⟩, firsts⟩ := List.forall_mem_cons.mp each
    obtain ⟨second, seconds⟩ := List.forall_mem_cons.mp discrete
    obtain ⟨values, rest⟩ := delimited b _ _ second rest (first.form_eq second rest)
    obtain ⟨rfl, rests⟩ := delimited_fields firsts seconds (Nat.succ.inj lengths) rest
    exact ⟨by rw [← values], rests⟩

theorem IsDiscrete.delimited (discrete : a.IsDiscrete) : a.Delimited := by
  intro b s t others same forms
  induction discrete generalizing b s t with
  | null =>
    cases others with
    | null => exact ⟨rfl, (List.cons.inj same).2⟩
    | _ => cases forms
  | missing =>
    cases others with
    | missing => exact ⟨rfl, (List.cons.inj same).2⟩
    | _ => cases forms
  | bool c =>
    cases others with
    | bool d => cases c <;> cases d <;> simp [encode] at same ⊢ <;> exact same
    | _ => cases forms
  | int n =>
    cases others with
    | int m => exact (selfDelimiting_int n m s t same).imp_left fun same => by rw [same]
    | _ => cases forms
  | string x =>
    cases others with
    | string y => exact (selfDelimiting_string x y s t same).imp_left fun same => by rw [same]
    | _ => cases forms
  | list vs each ih =>
    cases others with
    | list ws discrete =>
      obtain ⟨lengths, rest⟩ := sized_inj same
      exact (delimited_all (fun v member => ⟨each v member, ih v member⟩) discrete lengths rest).imp_left
        fun same => by rw [same]
    | _ => cases forms
  | key vs each ih =>
    cases others with
    | key ws discrete =>
      obtain ⟨lengths, rest⟩ := sized_inj same
      exact (delimited_all (fun v member => ⟨each v member, ih v member⟩) discrete lengths rest).imp_left
        fun same => by rw [same]
    | _ => cases forms
  | struct fields each ih =>
    cases others with
    | struct fields' discrete =>
      obtain ⟨lengths, rest⟩ := sized_inj same
      exact (delimited_fields (fun v member => ⟨each v member, ih v member⟩) discrete lengths rest).imp_left
        fun same => by rw [same]
    | _ => cases forms

section

variable (first : a.IsDiscrete) (second : b.IsDiscrete)

include first second

theorem IsDiscrete.encode_append_inj (same : a.encode ++ s = b.encode ++ t) : a = b ∧ s = t :=
  first.delimited b s t second same (first.form_eq second same)

theorem IsDiscrete.encode_inj : a.encode = b.encode ↔ a = b :=
  ⟨fun same => (first.encode_append_inj second (congrArg (· ++ []) same)).1, congrArg encode⟩

theorem IsDiscrete.compare? : compare? a b = none ∨
    ∃ order, Value.compare? a b = some order ∧ (order = .eq ↔ a = b) := by
  cases first with
  | int x =>
    cases second with
    | int y =>
      refine .inr ⟨_, rfl, ?_⟩
      simp only [int.injEq, ← Int64.toInt_inj, Int64.lt_iff_toInt_lt]
      split
      · simp; omega
      · split <;> simp <;> omega
    | _ => exact .inl rfl
  | string x =>
    cases second with
    | string y =>
      refine .inr ⟨_, rfl, ?_⟩
      rw [string.injEq]
      split
      · next less => simpa using fun same : x = y => String.lt_irrefl y (same ▸ less)
      · next notLess =>
        split
        · next more => simpa using fun same : x = y => String.lt_irrefl y (same ▸ more)
        · next notMore => simpa using String.le_antisymm notMore notLess
    | _ => exact .inl rfl
  | bool c =>
    cases second with
    | bool d => cases c <;> cases d <;> exact .inr ⟨_, rfl, by simp⟩
    | _ => exact .inl rfl
  | _ => cases second <;> exact .inl rfl

theorem IsDiscrete.equal_iff : a.equal b = true ↔ a = b := by
  unfold equal
  rcases first.compare? second with isNone | ⟨order, isSome, same⟩
  · rw [isNone, ← first.encode_inj second]
    exact beq_iff_eq
  · rw [isSome, ← same]
    exact beq_iff_eq

end

end Value

namespace Engine

theorem GroupTable.find?_inj {hash : List UInt8 → UInt64} {table : GroupTable} {a b : Value} {i j : Nat}
    (first : a.IsDiscrete) (second : b.IsDiscrete) (found : table.find? hash a.encode = some i)
    (found' : table.find? hash b.encode = some j) : i = j ↔ a = b := by
  constructor
  · rintro rfl
    obtain ⟨group, here, isFirst⟩ := code_of_find? found
    obtain ⟨group', here', isSecond⟩ := code_of_find? found'
    cases here.symm.trans here'
    exact (first.encode_inj second).mp (isFirst.symm.trans isSecond)
  · rintro rfl
    exact Option.some.inj (found.symm.trans found')

/-- The key of every entry that was added has a group. -/
theorem HashAggregator.Holds.exists_find? {hash : List UInt8 → UInt64} {agg : HashAggregator}
    {entries : List Entry} (holds : agg.Holds hash entries) {k : Value}
    (member : k ∈ entries.map Prod.fst) : ∃ i, agg.table.find? hash k.encode = some i := by
  rw [← Option.isSome_iff_exists, Option.isSome_iff_ne_none]
  intro missed
  obtain ⟨first, isFirst, isCode⟩ : ∃ first ∈ keysOf entries, first.encode = k.encode :=
    exists_distinctBy member
  refine holds.indexed.code_ne missed
    { key := first, code := first.encode,
      value := totalBy agg.kind.step agg.kind.seed entries first } ?_ isCode
  rw [← Array.mem_toList_iff, holds.groups]
  exact List.mem_map.mpr ⟨first, isFirst, rfl⟩

end Engine

/-- The encoding of values without doubles is injective and tells where it ends. So such values are
equal by comparison if they are the same value, and the keys of two entries share a group of an
aggregator if they are equal. -/
theorem Value.encode_selfDelimiting {a b : Value} (first : a.IsDiscrete) (second : b.IsDiscrete) :
    (∀ s t, a.encode ++ s = b.encode ++ t → a = b ∧ s = t) ∧ (a.equal b = true ↔ a = b) ∧
    ∀ hash kind budget entries agg,
      Engine.HashAggregator.addAll hash { kind, budget } entries = .ok agg →
      a ∈ entries.map Prod.fst → b ∈ entries.map Prod.fst →
      ∃ i j, agg.table.find? hash a.encode = some i ∧ agg.table.find? hash b.encode = some j ∧
        (i = j ↔ a = b) := by
  refine ⟨fun s t => first.encode_append_inj second, first.equal_iff second, ?_⟩
  intro hash kind budget entries agg added isFirst isSecond
  obtain ⟨_, _, holds⟩ := Engine.HashAggregator.holds_addAll added
  obtain ⟨i, found⟩ := holds.exists_find? isFirst
  obtain ⟨j, found'⟩ := holds.exists_find? isSecond
  exact ⟨i, j, found, found', Engine.GroupTable.find?_inj first second found found'⟩

theorem Value.encode_selfDelimiting_pair :
    (Value.key [.int 1, .string "a"]).equal (.key [.int 1, .string "a"]) = true :=
  have each : ∀ v ∈ [Value.int 1, .string "a"], v.IsDiscrete :=
    List.forall_mem_cons.mpr ⟨.int 1, List.forall_mem_singleton.mpr (.string "a")⟩
  (encode_selfDelimiting (.key _ each) (.key _ each)).2.1.mpr rfl

end QueryFusion
