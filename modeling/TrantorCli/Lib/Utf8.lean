import Mathlib.Data.List.Basic

/-!
# Well-formed UTF-8 byte lists

A byte list is well formed when it encodes a list of Unicode scalar values. The
two facts every text program rests on are proved here: a cut made in front of a
byte that is not a continuation byte leaves both halves well formed, and a
well-formed prefix can be taken away. Strict decoding reports the index of the
first ill-formed sequence; lossy decoding replaces each one by U+FFFD.
-/

namespace Utf8

/-- The bytes of a list of Unicode scalar values. -/
def encode (chars : List Char) : List UInt8 := chars.flatMap String.utf8EncodeChar

/-- A byte list is well-formed UTF-8 when it encodes some scalar values. -/
def Valid (bytes : List UInt8) : Prop := ∃ chars : List Char, bytes = encode chars

/-- A byte that only continues a sequence, `10xxxxxx`. -/
def isContinuation (byte : UInt8) : Bool := 0x80 ≤ byte && byte < 0xC0

/-- Every byte of a list is below 128. -/
def Ascii (bytes : List UInt8) : Prop := ∀ byte ∈ bytes, byte < 128

instance (bytes : List UInt8) : Decidable (Ascii bytes) :=
  inferInstanceAs (Decidable (∀ byte ∈ bytes, byte < 128))

/-- No characters, no bytes. -/
@[simp] theorem encode_nil : encode [] = [] := rfl

/-- The bytes of the first character come first. -/
@[simp] theorem encode_cons (c : Char) (cs : List Char) :
    encode (c :: cs) = String.utf8EncodeChar c ++ encode cs := rfl

/-- Characters are encoded one after the other. -/
@[simp] theorem encode_append (cs ds : List Char) : encode (cs ++ ds) = encode cs ++ encode ds := by
  simp [encode]

/-- No bytes are text. -/
theorem Valid.nil : Valid [] := ⟨[], rfl⟩

/-- What is encoded is text. -/
theorem Valid.encode (cs : List Char) : Valid (encode cs) := ⟨cs, rfl⟩

/-- Text after text is text. -/
theorem Valid.append {a b : List UInt8} (ha : Valid a) (hb : Valid b) : Valid (a ++ b) := by
  obtain ⟨cs, rfl⟩ := ha
  obtain ⟨ds, rfl⟩ := hb
  exact ⟨cs ++ ds, by simp⟩

/-- A scalar value below 128 is its own single byte. -/
theorem utf8EncodeChar_of_lt {byte : UInt8} (h : byte < 128) :
    String.utf8EncodeChar (Char.ofNat byte.toNat) = [byte] := by
  have hlt : byte.toNat < 128 := UInt8.lt_iff_toNat_lt.mp h
  have hval : (Char.ofNat byte.toNat).val.toNat = byte.toNat := by
    have hv : byte.toNat.isValidChar := Or.inl (by omega)
    rw [Char.ofNat, dif_pos hv]
    rfl
  unfold String.utf8EncodeChar
  rw [hval]
  simp [show byte.toNat ≤ 127 by omega]

/-- Bytes below 128 are well formed on their own. -/
theorem Ascii.valid {bytes : List UInt8} (h : Ascii bytes) : Valid bytes := by
  refine ⟨bytes.map fun byte => Char.ofNat byte.toNat, ?_⟩
  induction bytes with
  | nil => rfl
  | cons byte rest ih =>
    have hbyte := h byte (by simp)
    have hrest := ih fun b hb => h b (by simp [hb])
    rw [List.map_cons, encode_cons, utf8EncodeChar_of_lt hbyte, ← hrest]
    rfl

/-- No bytes are ASCII. -/
@[simp] theorem ascii_nil : Ascii [] := by simp [Ascii]

/-- ASCII is so byte for byte. -/
@[simp] theorem ascii_cons {byte : UInt8} {rest : List UInt8} :
    Ascii (byte :: rest) ↔ byte < 128 ∧ Ascii rest := by simp [Ascii]

/-- Both parts of ASCII are ASCII. -/
@[simp] theorem ascii_append {a b : List UInt8} : Ascii (a ++ b) ↔ Ascii a ∧ Ascii b := by
  simp only [Ascii, List.mem_append]
  exact ⟨fun h => ⟨fun x hx => h x (.inl hx), fun x hx => h x (.inr hx)⟩,
    fun h x hx => hx.elim (h.1 x) (h.2 x)⟩

/-- The encoding of one scalar value is a leading byte and continuation bytes. -/
theorem utf8EncodeChar_shape (c : Char) :
    ∃ first rest, String.utf8EncodeChar c = first :: rest ∧ isContinuation first = false ∧
      ∀ byte ∈ rest, isContinuation byte = true := by
  have hmax : c.val.toNat < 0x110000 := by
    have h := c.valid
    rcases h with h | ⟨_, h⟩ <;> omega
  unfold String.utf8EncodeChar
  generalize c.val.toNat = v at hmax ⊢
  simp only []
  split
  · refine ⟨_, _, rfl, ?_, by simp⟩
    simp [isContinuation, UInt8.le_iff_toNat_le, UInt8.lt_iff_toNat_lt]
    omega
  split
  · refine ⟨_, _, rfl, ?_, ?_⟩ <;>
      simp [isContinuation, UInt8.le_iff_toNat_le, UInt8.lt_iff_toNat_lt] <;> omega
  split
  · refine ⟨_, _, rfl, ?_, ?_⟩ <;>
      simp [isContinuation, UInt8.le_iff_toNat_le, UInt8.lt_iff_toNat_lt] <;> omega
  · refine ⟨_, _, rfl, ?_, ?_⟩ <;>
      simp [isContinuation, UInt8.le_iff_toNat_le, UInt8.lt_iff_toNat_lt] <;> omega

/-- The scalar value whose encoding a byte list starts with. -/
def decodeFirst (bytes : List UInt8) : Option Char := bytes.toByteArray.utf8DecodeChar? 0

private theorem decodeFirst_encode (c : Char) (rest : List UInt8) :
    decodeFirst (String.utf8EncodeChar c ++ rest) = some c := by
  rw [decodeFirst, List.toByteArray_append, ByteArray.utf8DecodeChar?_utf8EncodeChar_append]

/-- What was decoded is what the bytes start with. -/
theorem eq_of_decodeFirst {bytes : List UInt8} {c : Char} (h : decodeFirst bytes = some c) :
    bytes = String.utf8EncodeChar c ++ bytes.drop c.utf8Size := by
  obtain ⟨l, hl⟩ := ByteArray.exists_of_utf8DecodeChar?_eq_some h
  have hbytes : bytes = String.utf8EncodeChar c ++ l.data.toList := by
    have := congrArg (fun b : ByteArray => b.data.toList) hl
    simpa using this
  conv_rhs => rw [hbytes]
  rw [← String.length_utf8EncodeChar c, List.drop_left]
  exact hbytes

/-- Two encodings that agree from the start are of the same scalar value. -/
theorem encode_inj {c d : Char} {a b : List UInt8}
    (h : String.utf8EncodeChar c ++ a = String.utf8EncodeChar d ++ b) : c = d ∧ a = b := by
  have hc := decodeFirst_encode c a
  rw [h, decodeFirst_encode d b] at hc
  obtain rfl := Option.some.inj hc
  exact ⟨rfl, List.append_cancel_left h⟩

/-- A well-formed prefix can be taken away. -/
theorem Valid.of_append_left {a b : List UInt8} (ha : Valid a) (h : Valid (a ++ b)) :
    Valid b := by
  obtain ⟨cs, rfl⟩ := ha
  obtain ⟨ds, hds⟩ := h
  induction cs generalizing ds with
  | nil => exact ⟨ds, hds⟩
  | cons c cs ih =>
    cases ds with
    | nil => simp at hds
    | cons d ds =>
      rw [encode_cons, encode_cons, List.append_assoc] at hds
      exact ih ds (encode_inj hds).2

/-- A cut in front of a byte that continues nothing falls between scalar values. -/
theorem Valid.cut {a b : List UInt8} {byte : UInt8} (h : Valid (a ++ byte :: b))
    (hbyte : isContinuation byte = false) : Valid a ∧ Valid (byte :: b) := by
  obtain ⟨cs, hcs⟩ := h
  induction cs generalizing a with
  | nil => simp at hcs
  | cons c cs ih =>
    cases a with
    | nil => exact ⟨.nil, c :: cs, hcs⟩
    | cons x a =>
      obtain ⟨first, rest, hshape, -, hrest⟩ := utf8EncodeChar_shape c
      rw [encode_cons] at hcs
      rcases List.append_eq_append_iff.mp hcs with ⟨l, hl, hr⟩ | ⟨l, hl, hr⟩
      · -- the cut falls inside the encoding of `c`, where every byte continues it
        cases l with
        | nil =>
          have ha : Valid (x :: a) := ⟨[c], by simpa [encode] using hl.symm⟩
          exact ⟨ha, cs, by simpa using hr⟩
        | cons y l =>
          have hy : y = byte := by simpa using (List.cons.inj hr).1.symm
          rw [hshape, List.cons_append] at hl
          have hmem : byte ∈ rest := by rw [(List.cons.inj hl).2]; simp [hy]
          simp [hrest byte hmem] at hbyte
      · obtain ⟨hl', hrest'⟩ := ih hr.symm
        exact ⟨hl ▸ Valid.append ⟨[c], by simp⟩ hl', hrest'⟩

/-- ASCII bytes can be replaced by others one for one. -/
theorem Valid.replace {front a b : List UInt8} (h : Valid (front ++ a))
    (hab : List.Forall₂ (fun x y => x = y ∨ x < 128 ∧ y < 128) a b) : Valid (front ++ b) := by
  induction hab generalizing front with
  | nil => exact h
  | @cons x y a b hxy hab ih =>
    rw [← List.singleton_append, ← List.append_assoc] at h ⊢
    rcases hxy with rfl | ⟨hx, hy⟩
    · exact ih h
    · have hcontinues : isContinuation x = false := by
        rw [UInt8.lt_iff_toNat_lt] at hx
        simp only [UInt8.reduceToNat] at hx
        simp [isContinuation, UInt8.le_iff_toNat_le]
        omega
      rw [List.append_assoc, List.singleton_append] at h
      obtain ⟨hfront, hrest⟩ := Valid.cut h hcontinues
      have ha : Valid a := Valid.of_append_left (Ascii.valid (by simpa using hx) : Valid [x]) hrest
      exact ih (Valid.append (Valid.append hfront (Ascii.valid (by simpa using hy))) ha)

/-- A well-formed suffix can be taken away. -/
theorem Valid.of_append_right {a b : List UInt8} (hb : Valid b) (h : Valid (a ++ b)) : Valid a := by
  obtain ⟨cs, rfl⟩ := hb
  cases cs with
  | nil => simpa using h
  | cons c cs =>
    obtain ⟨first, rest, hshape, hfirst, -⟩ := utf8EncodeChar_shape c
    rw [encode_cons, hshape, List.cons_append] at h
    exact (h.cut hfirst).1

/-- The scalar values of a byte list, or the index of the first ill-formed
sequence, counted from `index`. -/
def decodeFrom (index : Nat) (bytes : List UInt8) : Except Nat (List Char) :=
  match bytes with
  | [] => .ok []
  | byte :: rest =>
    match decodeFirst (byte :: rest) with
    | none => .error index
    | some c => (c :: ·) <$> decodeFrom (index + c.utf8Size) ((byte :: rest).drop c.utf8Size)
termination_by bytes.length
decreasing_by
  have := c.utf8Size_pos
  simp only [List.length_drop, List.length_cons]
  omega

/-- What is encoded is decoded to itself. -/
theorem decodeFrom_encode (index : Nat) (cs : List Char) :
    decodeFrom index (encode cs) = .ok cs := by
  induction cs generalizing index with
  | nil => simp [decodeFrom]
  | cons c cs ih =>
    obtain ⟨first, rest, hshape, -⟩ := utf8EncodeChar_shape c
    have hcons : encode (c :: cs) = first :: (rest ++ encode cs) := by simp [hshape]
    have hdrop : (encode (c :: cs)).drop c.utf8Size = encode cs := by
      rw [encode_cons, ← String.length_utf8EncodeChar, List.drop_left]
    have hfirst : decodeFirst (first :: (rest ++ encode cs)) = some c := by
      rw [← hcons]; exact decodeFirst_encode c _
    rw [hcons, decodeFrom, hfirst]
    simp only []
    rw [← hcons, hdrop, ih]
    rfl

/-- Decoding succeeds on encodings only. -/
theorem encode_of_decodeFrom {index : Nat} {bytes : List UInt8} {cs : List Char}
    (h : decodeFrom index bytes = .ok cs) : bytes = encode cs := by
  induction hn : bytes.length using Nat.strongRecOn generalizing index bytes cs with
  | ind n ih =>
    cases bytes with
    | nil =>
      rw [decodeFrom] at h
      cases h
      rfl
    | cons byte rest =>
      rw [decodeFrom] at h
      cases hfirst : decodeFirst (byte :: rest) with
      | none => simp [hfirst] at h
      | some c =>
        simp only [hfirst] at h
        have hpos := c.utf8Size_pos
        cases htail : decodeFrom (index + c.utf8Size) ((byte :: rest).drop c.utf8Size) with
        | error e => simp [htail] at h
        | ok ds =>
          simp only [htail, Functor.map] at h
          cases h
          have hlen : ((byte :: rest).drop c.utf8Size).length < n := by
            rw [List.length_drop]
            simp only [List.length_cons] at hn ⊢
            omega
          rw [eq_of_decodeFirst hfirst, encode_cons, ← ih _ hlen htail rfl]

/-- Decoding succeeds exactly on well-formed bytes. -/
theorem valid_iff_decodeFrom {bytes : List UInt8} (index : Nat) :
    Valid bytes ↔ (decodeFrom index bytes).isOk = true := by
  constructor
  · rintro ⟨cs, rfl⟩
    rw [decodeFrom_encode]
    rfl
  · intro h
    cases hd : decodeFrom index bytes with
    | error e => simp [hd, Except.isOk, Except.toBool] at h
    | ok cs => exact ⟨cs, encode_of_decodeFrom hd⟩

instance (bytes : List UInt8) : Decidable (Valid bytes) :=
  decidable_of_iff _ (valid_iff_decodeFrom 0).symm

/-- U+FFFD, which stands in for bytes that are not text. -/
def replacement : List UInt8 := String.utf8EncodeChar (Char.ofNat 0xFFFD)

/-- The length a leading byte announces; `none` for a byte that leads nothing. -/
def announcedLength (byte : UInt8) : Option Nat :=
  if byte < 0x80 then some 1
  else if byte < 0xC0 then none
  else if byte < 0xE0 then some 2
  else if byte < 0xF0 then some 3
  else if byte < 0xF8 then some 4
  else none

/-- How many bytes one replacement stands for: a byte that leads nothing goes
alone, and an unfinished or wrong sequence goes with the bytes that followed it
as continuations. -/
def illFormedLength (byte : UInt8) (rest : List UInt8) : Nat :=
  match announcedLength byte with
  | none => 1
  | some n => 1 + ((rest.take (n - 1)).takeWhile (0x80 ≤ ·)).length

private theorem illFormedLength_pos (byte : UInt8) (rest : List UInt8) :
    0 < illFormedLength byte rest := by
  unfold illFormedLength
  split <;> omega

/-- Decoding that keeps every well-formed sequence and replaces the others. -/
def lossy (bytes : List UInt8) : List Char :=
  match bytes with
  | [] => []
  | byte :: rest =>
    match decodeFirst (byte :: rest) with
    | some c => c :: lossy ((byte :: rest).drop c.utf8Size)
    | none => Char.ofNat 0xFFFD :: lossy ((byte :: rest).drop (illFormedLength byte rest))
termination_by bytes.length
decreasing_by
  · have := c.utf8Size_pos
    simp only [List.length_drop, List.length_cons]
    omega
  · have := illFormedLength_pos byte rest
    simp only [List.length_drop, List.length_cons]
    omega

/-- Text is its own lossy decoding. -/
theorem lossy_encode (cs : List Char) : lossy (encode cs) = cs := by
  induction cs with
  | nil => simp [lossy]
  | cons c cs ih =>
    obtain ⟨first, rest, hshape, -⟩ := utf8EncodeChar_shape c
    have hcons : encode (c :: cs) = first :: (rest ++ encode cs) := by simp [hshape]
    have hdrop : (encode (c :: cs)).drop c.utf8Size = encode cs := by
      rw [encode_cons, ← String.length_utf8EncodeChar, List.drop_left]
    have hfirst : decodeFirst (first :: (rest ++ encode cs)) = some c := by
      rw [← hcons]; exact decodeFirst_encode c _
    rw [hcons, lossy, hfirst]
    simp only []
    rw [← hcons, hdrop, ih]

/-- An ASCII byte at the start stays there. -/
theorem head?_encode_lossy {byte : UInt8} (h : byte < 128) (rest : List UInt8) :
    (encode (lossy (byte :: rest))).head? = some byte := by
  have hchar := utf8EncodeChar_of_lt h
  have hfirst := decodeFirst_encode (Char.ofNat byte.toNat) rest
  rw [hchar, List.singleton_append] at hfirst
  rw [lossy, hfirst]
  simp only []
  rw [encode_cons, hchar]
  rfl

end Utf8
