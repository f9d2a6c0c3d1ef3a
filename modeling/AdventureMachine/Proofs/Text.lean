import AdventureMachine.Number.Text
import AdventureMachine.Text.Narrow
import AdventureMachine.Text.Search
import AdventureMachine.Text.Units

/-! Texts whose characters are single bytes, and texts cut into lines. For such a text the units
that a program prints, the bytes that come out and the characters agree one by one. -/
namespace AdventureMachine.Text

/-- Every character stands for a single byte. -/
def Narrow (text : String) : Prop := ∀ c ∈ text.toList, c.toNat ≤ 0xff

instance (text : String) : Decidable (Narrow text) :=
  List.decidableBAll (fun c : Char => c.toNat ≤ 0xff) text.toList

theorem narrow_empty : Narrow "" := by decide

@[simp]
theorem narrow_append (front back : String) :
    Narrow (front ++ back) ↔ Narrow front ∧ Narrow back := by
  simp only [Narrow, String.toList_append, List.mem_append]
  constructor
  · intro narrow
    exact ⟨fun c member => narrow c (.inl member), fun c member => narrow c (.inr member)⟩
  · rintro ⟨first, second⟩ c (member | member)
    · exact first c member
    · exact second c member

theorem narrow_join {texts : List String} (narrow : ∀ text ∈ texts, Narrow text) :
    Narrow (String.join texts) := by
  intro c member
  rw [String.toList_join, List.mem_flatMap] at member
  obtain ⟨text, listed, inside⟩ := member
  exact narrow text listed c inside

theorem isDigit_of_mem_decimal {value : Nat} {c : Char} (member : c ∈ (decimal value).toList) :
    c.isDigit = true := by
  rw [decimal, String.toList_ofList] at member
  exact Nat.isDigit_of_mem_toDigits (by decide) (by decide) member

theorem narrow_decimal (value : Nat) : Narrow (decimal value) := by
  intro c member
  have digit := isDigit_of_mem_decimal member
  simp only [Char.isDigit, Bool.and_eq_true, decide_eq_true_eq] at digit
  have high : c.val.toNat ≤ 57 := digit.2
  exact Nat.le_trans high (by decide)

theorem charUnits_of_le {c : Char} (narrow : c.toNat ≤ 0xff) : charUnits c = [.ofNat c.toNat] := by
  rw [charUnits, if_pos (by omega)]

theorem charBytes_of_le {c : Char} (narrow : c.toNat ≤ 0xff) : charBytes c = [.ofNat c.toNat] := by
  rw [charBytes, if_pos narrow]

theorem toNat_byteChar (byte : UInt8) : (byteChar byte).toNat = byte.toNat := by
  have bound : byte.toNat < 256 := byte.toNat_lt
  unfold byteChar
  rw [Char.ofNat, dif_pos (Or.inl (by omega))]
  rfl

theorem byteChar_ofNat {c : Char} (narrow : c.toNat ≤ 0xff) : byteChar (.ofNat c.toNat) = c := by
  rw [byteChar, UInt8.toNat_ofNat_of_lt' (Nat.lt_succ_of_le narrow), Char.ofNat_toNat]

theorem byteChar_injective {byte other : UInt8} (same : byteChar byte = byteChar other) :
    byte = other := by
  apply UInt8.toNat_inj.mp
  rw [← toNat_byteChar, same, toNat_byteChar]

theorem decode_append (front back : Bytes) : decode (front ++ back) = decode front ++ decode back := by
  rw [decode, List.map_append, String.ofList_append]
  rfl

theorem narrow_decode (bytes : Bytes) : Narrow (decode bytes) := by
  intro c member
  rw [toList_decode, List.mem_map] at member
  obtain ⟨byte, _, rfl⟩ := member
  have bound := byte.toNat_lt
  rw [toNat_byteChar]
  omega

/-- The bytes of a character that is not a single byte are all high. -/
theorem le_of_mem_utf8EncodeChar {c : Char} {byte : UInt8} (wide : 0xff < c.toNat)
    (member : byte ∈ String.utf8EncodeChar c) : 0x80 ≤ byte.toNat := by
  have wide' : 0xff < c.val.toNat := wide
  simp only [String.utf8EncodeChar] at member
  rw [if_neg (by omega)] at member
  split at member
  · simp only [List.mem_cons, List.not_mem_nil, or_false] at member
    rcases member with rfl | rfl <;> simp only [UInt8.toNat_ofNat'] <;> omega
  · split at member
    · simp only [List.mem_cons, List.not_mem_nil, or_false] at member
      rcases member with rfl | rfl | rfl <;> simp only [UInt8.toNat_ofNat'] <;> omega
    · simp only [List.mem_cons, List.not_mem_nil, or_false] at member
      rcases member with rfl | rfl | rfl | rfl <;> simp only [UInt8.toNat_ofNat'] <;> omega

/-- A low byte of a text is one of its characters. -/
theorem byteChar_mem_of_mem_encode {text : String} {byte : UInt8} (low : byte.toNat < 0x80)
    (member : byte ∈ encode text) : byteChar byte ∈ text.toList := by
  obtain ⟨c, listed, inside⟩ := List.mem_flatMap.mp member
  rw [charBytes] at inside
  split at inside
  · rename_i narrow
    rw [List.mem_singleton.mp inside, byteChar_ofNat narrow]
    exact listed
  · rename_i wide
    have high := le_of_mem_utf8EncodeChar (Nat.lt_of_not_le wide) inside
    omega

/-- The byte that ends a line. -/
def lineFeed : UInt8 := 10

theorem byteChar_lineFeed : byteChar lineFeed = '\n' := by decide

theorem newline_mem_decode_iff {bytes : Bytes} :
    '\n' ∈ (decode bytes).toList ↔ lineFeed ∈ bytes := by
  rw [toList_decode, List.mem_map]
  constructor
  · rintro ⟨byte, member, same⟩
    rw [← byteChar_lineFeed] at same
    exact byteChar_injective same ▸ member
  · intro member
    exact ⟨lineFeed, member, byteChar_lineFeed⟩

section

variable {text : String} (narrow : Narrow text)

include narrow

theorem Narrow.units_eq : units text = text.toList.map fun c => .ofNat c.toNat := by
  rw [units, List.map_eq_flatMap, List.flatMap_def, List.flatMap_def]
  exact congrArg List.flatten
    (List.map_congr_left fun c member => charUnits_of_le (narrow c member))

theorem Narrow.encode_eq : encode text = text.toList.map fun c => .ofNat c.toNat := by
  rw [encode, List.map_eq_flatMap, List.flatMap_def, List.flatMap_def]
  exact congrArg List.flatten
    (List.map_congr_left fun c member => charBytes_of_le (narrow c member))

theorem Narrow.length_encode : (encode text).length = text.toList.length := by
  rw [narrow.encode_eq, List.length_map]

theorem Narrow.toNat_le {unit : UInt16} (member : unit ∈ units text) : unit.toNat ≤ 0xff := by
  rw [narrow.units_eq, List.mem_map] at member
  obtain ⟨c, listed, rfl⟩ := member
  have bound := narrow c listed
  rw [UInt16.toNat_ofNat_of_lt' (Nat.lt_of_le_of_lt bound (by decide))]
  exact bound

/-- The low bytes of the units of a narrow text are its bytes. -/
theorem Narrow.map_units : (units text).map UInt16.toUInt8 = encode text := by
  rw [narrow.units_eq, narrow.encode_eq, List.map_map]
  apply List.map_congr_left
  intro c member
  have bound := narrow c member
  apply UInt8.toNat_inj.mp
  simp only [Function.comp_apply, UInt16.toNat_toUInt8, UInt16.toNat_ofNat', UInt8.toNat_ofNat']
  omega

theorem Narrow.decode_encode : decode (encode text) = text := by
  apply String.toList_injective
  rw [toList_decode, narrow.encode_eq, List.map_map]
  exact (List.map_congr_left fun c member => byteChar_ofNat (narrow c member)).trans
    (List.map_id' _)

end

@[simp]
theorem units_decode (bytes : Bytes) : units (decode bytes) = bytes.map UInt8.toUInt16 := by
  rw [(narrow_decode bytes).units_eq, toList_decode, List.map_map]
  apply List.map_congr_left
  intro byte _
  apply UInt16.toNat_inj.mp
  have bound := byte.toNat_lt
  simp only [Function.comp_apply, toNat_byteChar, UInt16.toNat_ofNat', UInt8.toNat_toUInt16]
  omega

theorem Narrow.units_injective {text other : String} (narrow : Narrow text)
    (narrow' : Narrow other) (same : units text = units other) : text = other := by
  have bytes := congrArg (List.map UInt16.toUInt8) same
  rw [narrow.map_units, narrow'.map_units] at bytes
  rw [← narrow.decode_encode, bytes, narrow'.decode_encode]

/-- A narrow text is spelled by bytes exactly when its units are the bytes. -/
theorem Narrow.units_eq_map_iff {text : String} (narrow : Narrow text) (bytes : Bytes) :
    units text = bytes.map UInt8.toUInt16 ↔ text = decode bytes := by
  constructor
  · intro same
    exact narrow.units_injective (narrow_decode bytes) (by rw [same, units_decode])
  · rintro rfl
    exact units_decode bytes

section Lines

theorem lines_eq (text : List Char) : lines text = text.splitOnP (· = '\n') := by
  have read (passed : List Char) :
      lines.go passed text = text.splitOnPPrepend (· = '\n') passed := by
    induction text generalizing passed with
    | nil => rfl
    | cons c rest ih =>
      rw [lines.go, ih, ih, List.splitOnPPrepend]
      simp only [decide_eq_true_eq]
  exact read []

theorem lines_of_clean {line : List Char} (clean : '\n' ∉ line) : lines line = [line] := by
  rw [lines_eq]
  apply List.splitOnP_eq_singleton
  intro c member
  exact decide_eq_false fun same => clean (same ▸ member)

/-- A line feed separates the lines in front of it from those behind. -/
theorem lines_append (front back : List Char) :
    lines (front ++ '\n' :: back) = lines front ++ lines back := by
  rw [lines_eq, lines_eq, lines_eq]
  exact List.splitOnP_append_cons _ _ (decide_eq_true rfl)

theorem lines_ne_nil (text : List Char) : lines text ≠ [] := by
  rw [lines_eq]
  exact List.splitOnP_ne_nil _ _

theorem unlines_cons {line : List Char} {rest : List (List Char)} (more : rest ≠ []) :
    unlines (line :: rest) = line ++ '\n' :: unlines rest := by
  cases rest with
  | nil => exact absurd rfl more
  | cons next others => rfl

theorem unlines_eq (lines : List (List Char)) : unlines lines = ['\n'].intercalate lines := by
  induction lines with
  | nil => rfl
  | cons line rest ih =>
    cases rest with
    | nil => exact (List.append_nil line).symm
    | cons next others =>
      rw [unlines_cons (List.cons_ne_nil _ _), ih, List.intercalate_cons_cons, List.append_assoc]
      rfl

theorem unlines_append {front back : List (List Char)} (some : front ≠ []) (more : back ≠ []) :
    unlines (front ++ back) = unlines front ++ '\n' :: unlines back := by
  induction front with
  | nil => exact absurd rfl some
  | cons line rest ih =>
    cases rest with
    | nil => exact unlines_cons more
    | cons next others =>
      have whole : unlines (line :: next :: others) = line ++ '\n' :: unlines (next :: others) :=
        unlines_cons (by simp)
      rw [List.cons_append, unlines_cons (by simp), ih (by simp), whole, List.append_assoc,
        List.cons_append]

theorem unlines_lines (text : List Char) : unlines (lines text) = text := by
  have joined (passed : List Char) : unlines (lines.go passed text) = passed.reverse ++ text := by
    induction text generalizing passed with
    | nil => exact (List.append_nil _).symm
    | cons c rest ih =>
      rw [lines.go]
      split
      · rename_i same
        have more : lines.go [] rest ≠ [] := lines_ne_nil rest
        rw [unlines_cons more, ih, same]
        rfl
      · rw [ih, List.reverse_cons, List.append_assoc]
        rfl
  exact joined []

theorem stripNewlines_append (text : List Char) :
    stripNewlines (text ++ ['\n']) = stripNewlines text := by
  simp [stripNewlines]

theorem stripNewlines_of_clean {text : List Char} (clean : ¬ ['\n'] <:+ text) :
    stripNewlines text = text := by
  rcases List.eq_nil_or_concat text with rfl | ⟨front, last, rfl⟩
  · rfl
  · rw [List.concat_eq_append] at clean ⊢
    have other : last ≠ '\n' := by
      rintro rfl
      exact clean (List.suffix_append _ _)
    simp [stripNewlines, other]

end Lines

section Search

variable {part front : List Char}

theorem splitAt?_go_append {text : List Char} (passed : List Char) (found : part <+: text)
    (absent : ∀ before behind, front = before ++ behind → behind ≠ [] →
      ¬ part <+: behind ++ text) :
    splitAt?.go part passed (front ++ text) = some (passed.reverse ++ front, text) := by
  induction front generalizing passed with
  | nil =>
    rw [List.nil_append, List.append_nil]
    cases text with
    | nil =>
      obtain rfl := List.prefix_nil.mp found
      rfl
    | cons c rest => rw [splitAt?.go, if_pos (List.isPrefixOf_iff_prefix.mpr found)]
  | cons c rest ih =>
    have here : ¬ part.isPrefixOf (c :: (rest ++ text)) = true := by
      rw [List.isPrefixOf_iff_prefix]
      exact absent [] (c :: rest) rfl (by simp)
    have later := ih (c :: passed) fun before behind same =>
      absent (c :: before) behind (by rw [same, List.cons_append])
    rw [List.cons_append, splitAt?.go, if_neg here, later, List.reverse_cons, List.append_assoc]
    rfl

/-- A text that ends in a character foreign to `part` and has no `part` in it is what stands before
the first one that follows. -/
theorem splitAt?_append {last : Char} (absent : ¬ part <:+: front ++ [last]) (strange : last ∉ part)
    (suffix : List Char) :
    splitAt? part (front ++ [last] ++ (part ++ suffix)) =
      some (front ++ [last], part ++ suffix) := by
  apply splitAt?_go_append [] (List.prefix_append _ _)
  intro before behind split more found
  rcases List.prefix_or_prefix_of_prefix found (List.prefix_append behind _) with inside | beyond
  · apply absent
    rw [split]
    exact inside.isInfix.trans (List.suffix_append before behind).isInfix
  · rcases List.eq_nil_or_concat behind with rfl | ⟨start, final, rfl⟩
    · exact more rfl
    · rw [List.concat_eq_append] at split beyond
      rw [← List.append_assoc] at split
      have same : last = final := List.singleton_inj.mp (List.append_inj_right' split rfl)
      exact strange (beyond.subset (by simp [same]))

theorem splitAt?_go_eq_none {text : List Char} (passed : List Char)
    (missed : splitAt?.go part passed text = none) : ¬ part <:+: text := by
  induction text generalizing passed with
  | nil =>
    rw [splitAt?.go] at missed
    split at missed
    · cases missed
    · rename_i some
      rwa [List.infix_nil, ← List.isEmpty_iff]
  | cons c rest ih =>
    rw [splitAt?.go] at missed
    split at missed
    · cases missed
    · rename_i here
      rw [List.isPrefixOf_iff_prefix] at here
      rw [List.infix_cons_iff, not_or]
      exact ⟨here, ih (c :: passed) missed⟩

/-- What is cut off begins with the part, and no later cut does so from further in front. -/
theorem splitAt?_go_eq_some {text before behind : List Char} (passed : List Char)
    (found : splitAt?.go part passed text = some (before, behind)) :
    ∃ front, before = passed.reverse ++ front ∧ text = front ++ behind ∧ part <+: behind ∧
      ∀ earlier later, text = earlier ++ later → part <+: later →
        front.length ≤ earlier.length := by
  induction text generalizing passed with
  | nil =>
    rw [splitAt?.go] at found
    split at found
    · rename_i empty
      cases found
      obtain rfl := List.isEmpty_iff.mp empty
      exact ⟨[], (List.append_nil _).symm, rfl, List.prefix_rfl, fun _ _ _ _ => Nat.zero_le _⟩
    · cases found
  | cons c rest ih =>
    rw [splitAt?.go] at found
    split at found
    · rename_i here
      cases found
      exact ⟨[], (List.append_nil _).symm, rfl, List.isPrefixOf_iff_prefix.mp here,
        fun _ _ _ _ => Nat.zero_le _⟩
    · rename_i here
      rw [List.isPrefixOf_iff_prefix] at here
      obtain ⟨front, rfl, rfl, start, least⟩ := ih (c :: passed) found
      refine ⟨c :: front, by simp, rfl, start, ?_⟩
      intro earlier later same begins
      cases earlier with
      | nil => exact absurd (same ▸ begins) here
      | cons first more =>
        obtain ⟨-, same⟩ := List.cons.inj same
        exact Nat.succ_le_succ (least more later same begins)

end Search

end AdventureMachine.Text
