import Columnar.Proofs.Compact.Numbers
import Columnar.Proofs.Words

/-!
# Words are read back from what they are written as

A word is written as the groups of its folded number, which are as few as spell it, and what is
read of them is the word.  Nothing but the bytes of the word is read or written, and neither what
stands around them nor what else a reader or writer holds has a part in it.

* `Varint.Exact v`         a word of 64 bits: what it is written as, and what is read of that;
* `wordBytes n`            the bytes of a signed word;
* `Write.word`, `Read.word w`   all writers and readers of signed words, at one width;
* `Write.Calls x bs`       `x` writes `bs`, or nothing where the sink refuses it;
* `Read.Yields y bs a`     `y` reads `bs`, wherever it stands, and answers `a`;
* `Inverse x y n a`        `x` writes the bytes of `n`, and `y` reads them as `a`.

`integers_inverse` says it for words of 64 bits and for signed ones of 16, 32 and 64.
-/

namespace Columnar

namespace Varint

variable {bs : Bytes} {n k : Nat}

/-! ## the fewest groups -/

/-- groups that are read as a number are as many as it is written with, or more -/
theorem length_encode_le (h : decode bs = .ok (n, k)) : (encode n).length ≤ k := by
  obtain ⟨hk, hlen, hgroups, hvalue⟩ := decode_eq_ok.mp h
  have hpos : 0 < k := by
    rcases Nat.eq_zero_or_pos k with rfl | hpos
    · cases hgroups
    · exact hpos
  -- what is read is no more than what is spelled, and `k` groups hold `7 * k` bits
  have hlt : value (bs.take k) < 128 ^ k := by
    have h := value_lt (bs.take k)
    rwa [List.length_take_of_le hk] at h
  refine encode_length_le hpos (Nat.lt_of_le_of_lt (hvalue ▸ Nat.mod_le _ _) ?_)
  rwa [Nat.pow_mul]

theorem decode_encode (hn : n < 2 ^ 64) (rest : Bytes) :
    decode (encode n ++ rest) = .ok (n, (encode n).length) := by
  have hread : read (.ofBytes (encode n ++ rest)) = (.ok n, ⟨(encode n).reverse ++ [], rest⟩) :=
    read_encode hn [] rest
  rw [decode, hread, List.append_nil]
  dsimp only
  rw [Cursor.pos, List.length_reverse]

/-- what a word is written as, and what is read of it -/
structure Exact (v : UInt64) : Prop where
  word : encode v.toNat = ofWord v
  length : (encode v.toNat).length ≤ maxLen
  /-- no fewer bytes are read as the word, in front of others or not -/
  fewest : ∀ bs k, decode bs = .ok (v.toNat, k) → (encode v.toNat).length ≤ k ∧ k ≤ bs.length
  decodes : ∀ rest, decode (encode v.toNat ++ rest) = .ok (v.toNat, (encode v.toNat).length)
  /-- so it is wherever the word stands in a buffer -/
  reads : Cursor.Takes readWord (ofWord v) v

theorem exact_word (v : UInt64) : Exact v where
  word := encode_toNat v
  length := encode_length_le (by decide) (Nat.lt_of_lt_of_le v.toNat_lt (by decide))
  fewest := fun _ _ h => ⟨length_encode_le h, (decode_eq_ok.mp h).1⟩
  decodes := decode_encode v.toNat_lt
  reads := by
    have hread := Cursor.takes_bind (f := fun n => pure (UInt64.ofNat n))
      (read_encode v.toNat_lt) (Cursor.takes_pure _)
    rwa [List.append_nil, UInt64.ofNat_toNat, encode_toNat, ← readWord_eq] at hread

end Varint

namespace Compact

variable {α : Type} {w : Nat}

/-! ## signed words -/

/-- the bytes of a signed word -/
def wordBytes (n : BitVec w) : Bytes := Varint.ofWord (UInt64.ofNat (Zigzag.foldWord n).toNat)

/-- a signed word of at most 64 bits -/
def Write.word (n : BitVec w) : Write Nat := call (wordBytes n)

/-- a signed word of `w` bits, which what is read has to fit -/
def Read.word (w : Nat) : Read (BitVec w) := do
  let raw ← varint
  if raw < 2 ^ w then
    pure (Zigzag.unfoldWord (BitVec.ofNat w raw))
  else
    Step.fail (Fault.varintTooWide raw w)

theorem wordBytes_eq (hw : w ≤ 64) (n : BitVec w) :
    wordBytes n = Varint.encode (Zigzag.foldWord n).toNat := by
  have hlt : (Zigzag.foldWord n).toNat < 2 ^ 64 :=
    Nat.lt_of_lt_of_le (Zigzag.foldWord n).isLt (Nat.pow_le_pow_right (by decide) hw)
  rw [wordBytes, ← Varint.encode_toNat, UInt64.toNat_ofNat', Nat.mod_eq_of_lt hlt]

theorem Write.word_eq (hw : w ≤ 64) (n : BitVec w) :
    Write.word n = Write.varint (Zigzag.fold n.toInt) := by
  rw [Write.word, wordBytes_eq hw, Zigzag.toNat_foldWord, Write.varint]

theorem Write.i16_eq_word (n : Int16) : Write.i16 n = Write.word n.toBitVec :=
  (Write.word_eq (by decide) n.toBitVec).symm

theorem Write.i32_eq_word (n : Int32) : Write.i32 n = Write.word n.toBitVec :=
  (Write.word_eq (by decide) n.toBitVec).symm

theorem Write.i64_eq_word (n : Int64) : Write.i64 n = Write.word n.toBitVec :=
  (Write.word_eq (by decide) n.toBitVec).symm

/-- the word of a number that fits it -/
theorem ofInt_unfold {raw : Nat} (h : raw < 2 ^ w) :
    BitVec.ofInt w (Zigzag.unfold raw) = Zigzag.unfoldWord (BitVec.ofNat w raw) := by
  have hraw : (BitVec.ofNat w raw).toNat = raw := by
    rw [BitVec.toNat_ofNat, Nat.mod_eq_of_lt h]
  rw [← hraw, ← Zigzag.toInt_unfoldWord, BitVec.ofInt_toInt, hraw]

/-- a number that is folded into `w` bits is a word -/
theorem Read.folded_eq_word (f : Int → α) (g : BitVec w → α)
    (h : ∀ i, f i = g (BitVec.ofInt w i)) :
    (do let n ← Read.folded w; pure (f n) : Read α) =
      (do let n ← Read.word w; pure (g n) : Read α) := by
  funext r
  rw [Step.bind_apply, Step.bind_apply, Read.folded, Read.word, Step.bind_apply, Step.bind_apply]
  rcases Read.varint r with ⟨e | raw, r'⟩
  · rfl
  · dsimp only
    by_cases hfits : raw < 2 ^ w
    · rw [if_pos hfits, if_pos hfits, Step.pure_apply, Step.pure_apply]
      dsimp only
      rw [h, ofInt_unfold hfits]
    · rw [if_neg hfits, if_neg hfits]
      rfl

/-- a number that was read fits 64 bits -/
theorem Read.varint_lt {r r' : Reader} {n : Nat} (h : Read.varint r = (.ok n, r')) :
    n < 2 ^ 64 := by
  rw [Read.varint, Read.ofCursor, Step.on_apply] at h
  rcases hread : Varint.read r.cursor with ⟨e | m, c⟩
  · rw [Step.lift_error hread] at h
    cases h
  · rw [Step.lift_ok hread] at h
    cases h
    obtain ⟨bs, c', -, hpure⟩ := Step.bind_eq_ok.mp hread
    cases hpure
    exact Nat.mod_lt _ (by decide)

theorem Read.i16_eq_word : Read.i16 = (do let n ← Read.word 16; pure (Int16.ofBitVec n)) :=
  Read.folded_eq_word Int16.ofInt Int16.ofBitVec fun _ => rfl

theorem Read.i32_eq_word : Read.i32 = (do let n ← Read.word 32; pure (Int32.ofBitVec n)) :=
  Read.folded_eq_word Int32.ofInt Int32.ofBitVec fun _ => rfl

/-- a word of 64 bits is what any number fits -/
theorem Read.i64_eq_word : Read.i64 = (do let n ← Read.word 64; pure (Int64.ofBitVec n)) := by
  refine Eq.trans ?_ (Read.folded_eq_word Int64.ofInt Int64.ofBitVec fun _ => rfl)
  funext r
  rw [Read.i64, Step.bind_apply, Step.bind_apply, Read.folded, Step.bind_apply]
  rcases hread : Read.varint r with ⟨e | raw, r'⟩
  · rfl
  · dsimp only
    rw [if_pos (Read.varint_lt hread)]
    rfl

/-! ## writing and reading -/

/-- `x` is one call with `bs`: the sink takes it as a whole or refuses it, and nothing else of the
writer changes -/
structure Write.Calls (x : Write Nat) (bs : Bytes) : Prop where
  taken : ∀ w : Writer, w.sink.admits w.sink.log bs = true → ∃ z : Sink,
    x w = (.ok bs.length, { w with sink := z }) ∧ z.bytes = w.sink.bytes ++ bs
  refused : ∀ w : Writer, w.sink.admits w.sink.log bs = false → ∃ z : Sink,
    x w = (.error Sink.refusal, { w with sink := z }) ∧ z.bytes = w.sink.bytes

/-- `y` reads `bs` and no more, and nothing else of the reader changes or has a part in it -/
def Read.Yields (y : Read α) (bs : Bytes) (a : α) : Prop :=
  ∀ (r : Reader) (before rest : Bytes), r.cursor = ⟨before, bs ++ rest⟩ →
    y r = (.ok a, { r with cursor := ⟨bs.reverse ++ before, rest⟩ })

/-- `x` writes the bytes of `n`, and `y` reads them as `a` -/
structure Inverse (x : Write Nat) (y : Read α) (n : BitVec w) (a : α) : Prop where
  writes : x.Calls (wordBytes n)
  reads : y.Yields (wordBytes n) a

theorem write_of_ne {bs : Bytes} (h : bs ≠ []) (s : Sink) : Sink.write bs s =
    if s.admits s.log bs then (.ok (), { s with log := (bs, true) :: s.log })
    else (.error Sink.refusal, { s with log := (bs, false) :: s.log }) := by
  rw [Sink.write, if_neg (mt List.isEmpty_iff.mp h)]

/-- a call that is not empty is one call of the sink -/
theorem Write.calls_call {bs : Bytes} (h : bs ≠ []) : (call bs).Calls bs := by
  constructor
  · intro w hw
    have hsink := (write_of_ne h w.sink).trans (if_pos hw)
    refine ⟨_, ?_, Sink.bytes_write_ok hsink⟩
    rw [call, Step.bind_apply, Step.on_apply, hsink]
    rfl
  · intro w hw
    have hsink := (write_of_ne h w.sink).trans (if_neg (by rw [hw]; decide))
    refine ⟨_, ?_, Sink.bytes_write_error hsink⟩
    rw [call, Step.bind_apply, Step.on_apply, hsink]

theorem Write.word_calls (hw : w ≤ 64) (n : BitVec w) : (Write.word n).Calls (wordBytes n) := by
  refine calls_call ?_
  rw [wordBytes_eq hw]
  exact Varint.encode_ne_nil _

theorem Read.word_yields (hw : w ≤ 64) (n : BitVec w) : (Read.word w).Yields (wordBytes n) n := by
  intro r before rest hc
  have hfits := (Zigzag.foldWord n).isLt
  have hlt := Nat.lt_of_lt_of_le hfits (Nat.pow_le_pow_right (by decide) hw)
  rw [wordBytes_eq hw] at hc ⊢
  rw [Read.word, Read.varint, Step.bind_ok (Read.ofCursor_ok (Varint.read_encode hlt) hc),
    if_pos hfits, BitVec.ofNat_toNat, BitVec.setWidth_eq, Zigzag.unfoldWord_foldWord,
    Step.pure_apply]

/-- a writer and a reader of words of one width -/
theorem inverse_word (hw : w ≤ 64) {x : Write Nat} {y : Read α} {g : BitVec w → α} {n : BitVec w}
    (hx : x = Write.word n) (hy : y = (do let n ← Read.word w; pure (g n))) :
    Inverse x y n (g n) where
  writes := hx ▸ Write.word_calls hw n
  reads := by
    intro r before rest hc
    rw [hy, Step.bind_ok (Read.word_yields hw n r before rest hc), Step.pure_apply]

/-- A word is written in as few bytes as are read as it, ten at most, and is read back from them
wherever they stand; so are signed words of 16, 32 and 64 bits. -/
theorem integers_inverse : (∀ v : UInt64, Varint.Exact v) ∧
    (∀ n : Int16, Inverse (Write.i16 n) Read.i16 n.toBitVec n) ∧
    (∀ n : Int32, Inverse (Write.i32 n) Read.i32 n.toBitVec n) ∧
    (∀ n : Int64, Inverse (Write.i64 n) Read.i64 n.toBitVec n) :=
  ⟨Varint.exact_word,
    fun n => inverse_word (by decide) (Write.i16_eq_word n) Read.i16_eq_word,
    fun n => inverse_word (by decide) (Write.i32_eq_word n) Read.i32_eq_word,
    fun n => inverse_word (by decide) (Write.i64_eq_word n) Read.i64_eq_word⟩

end Compact

end Columnar
