import AdventureMachine.Bytes

/-! Text exchanged with a guest, one byte per character. Characters up to U+00FF are single bytes;
a wider character is sent as its UTF-8 sequence and leaves its neighbours alone. -/
namespace AdventureMachine.Text

/-- The bytes that stand for one character. -/
def charBytes (c : Char) : Bytes :=
  if c.toNat ≤ 0xff then [.ofNat c.toNat] else String.utf8EncodeChar c

/-- The bytes of a text. -/
def encode (text : String) : Bytes := text.toList.flatMap charBytes

/-- The character of one byte. -/
def byteChar (byte : UInt8) : Char := Char.ofNat byte.toNat

/-- The text of a byte string, one character per byte. -/
def decode (bytes : Bytes) : String := .ofList (bytes.map byteChar)

@[simp]
theorem toList_decode (bytes : Bytes) : (decode bytes).toList = bytes.map byteChar := by
  simp [decode]

@[simp]
theorem charBytes_byteChar (byte : UInt8) : charBytes (byteChar byte) = [byte] := by
  have bound : byte.toNat < 256 := byte.toNat_lt
  have same : (byteChar byte).toNat = byte.toNat := by
    unfold byteChar
    rw [Char.ofNat, dif_pos (Or.inl (by omega))]
    rfl
  simp [charBytes, same, show byte.toNat ≤ 255 by omega]

/-- Encoding gives back the bytes that a text was decoded from. -/
@[simp]
theorem encode_decode (bytes : Bytes) : encode (decode bytes) = bytes := by
  simp only [encode, toList_decode]
  induction bytes with
  | nil => rfl
  | cons byte rest ih => simp [ih]

@[simp]
theorem encode_append (front back : String) : encode (front ++ back) = encode front ++ encode back := by
  simp [encode]

end AdventureMachine.Text
