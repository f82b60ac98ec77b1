import CodeStyle.Proofs.LossyText
import Mathlib.Data.List.Basic

/-!
UTF-8 in both directions. `Spells` says which bytes stand for which value; a character is written by bytes
that spell it and read from bytes that spell it, so that reading what was written gives the text back, and a
text without damaged parts takes as many bytes as it was read from.
-/

namespace CodeStyle.Text

namespace Utf8

/-- The bytes that complete a lead byte of a shape. -/
def Shape.Completes (s : Shape) : List UInt8 → Prop
  | [] => False
  | b :: tail => (s.low ≤ b ∧ b ≤ s.high) ∧ tail.length = s.further ∧ ∀ x ∈ tail, isContinuation x = true

theorem Shape.Completes.length {s : Shape} {more : List UInt8} (h : s.Completes more) :
    more.length = s.further + 1 := by
  cases more with
  | nil => exact h.elim
  | cons b tail => rw [List.length_cons, h.2.1]

theorem reach_eq_iff (s : Shape) (rest : List UInt8) :
    s.reach rest = s.further + 1 ↔ s.Completes (rest.take (s.further + 1)) := by
  cases rest with
  | nil => simp [Shape.reach, Shape.Completes]
  | cons b rest =>
    have hall : ((rest.take s.further).takeWhile isContinuation).length = s.further ↔
        (rest.take s.further).length = s.further ∧ ∀ x ∈ rest.take s.further, isContinuation x = true := by
      have hprefix := List.takeWhile_prefix isContinuation (l := rest.take s.further)
      have hle := hprefix.length_le
      have htake := List.length_take_le s.further rest
      constructor
      · intro h
        have hself := hprefix.eq_of_length (by omega)
        exact ⟨by omega, List.takeWhile_eq_self_iff.1 hself⟩
      · rintro ⟨hlength, h⟩
        rw [List.takeWhile_eq_self_iff.2 h, hlength]
    simp only [Shape.reach, Shape.Completes, List.take_succ_cons, ← hall, Bool.and_eq_true, decide_eq_true_eq]
    split
    next hb => simp only [hb, true_and]; omega
    next hb => simp [hb]

/-- A lead byte and the bytes behind it that spell a value. -/
inductive Spells : UInt8 → List UInt8 → Nat → Prop where
  | ascii {a : UInt8} (ha : Byte.isNonAscii a = false) : Spells a [] a.toNat
  | lead {a : UInt8} {more : List UInt8} {s : Shape} (hs : shape? a = some s) (hmore : s.Completes more) :
      Spells a more (scalar a more)

theorem shape?_toNat (lead : UInt8) :
    shape? lead =
      if 0xC2 ≤ lead.toNat ∧ lead.toNat ≤ 0xDF then some ⟨0x80, 0xBF, 0⟩
      else if lead.toNat = 0xE0 then some ⟨0xA0, 0xBF, 1⟩
      else if lead.toNat = 0xED then some ⟨0x80, 0x9F, 1⟩
      else if 0xE1 ≤ lead.toNat ∧ lead.toNat ≤ 0xEF then some ⟨0x80, 0xBF, 1⟩
      else if lead.toNat = 0xF0 then some ⟨0x90, 0xBF, 2⟩
      else if 0xF1 ≤ lead.toNat ∧ lead.toNat ≤ 0xF3 then some ⟨0x80, 0xBF, 2⟩
      else if lead.toNat = 0xF4 then some ⟨0x80, 0x8F, 2⟩
      else none := by
  simp [shape?, UInt8.le_iff_toNat_le, ← UInt8.toNat_inj]

theorem shape_cases {a : UInt8} {s : Shape} (h : shape? a = some s) :
    s.further = 0 ∧ (0xC2 ≤ a.toNat ∧ a.toNat ≤ 0xDF) ∧ 0x80 ≤ s.low.toNat ∧ s.high.toNat ≤ 0xBF ∨
    s.further = 1 ∧ (0xE0 ≤ a.toNat ∧ a.toNat ≤ 0xEF) ∧ 0x80 ≤ s.low.toNat ∧ s.high.toNat ≤ 0xBF ∧
      (a.toNat = 0xE0 → 0xA0 ≤ s.low.toNat) ∧ (a.toNat = 0xED → s.high.toNat ≤ 0x9F) ∨
    s.further = 2 ∧ (0xF0 ≤ a.toNat ∧ a.toNat ≤ 0xF4) ∧ 0x80 ≤ s.low.toNat ∧ s.high.toNat ≤ 0xBF ∧
      (a.toNat = 0xF0 → 0x90 ≤ s.low.toNat) ∧ (a.toNat = 0xF4 → s.high.toNat ≤ 0x8F) := by
  rw [shape?_toNat] at h
  split_ifs at h <;> cases h <;> simp only [UInt8.toNat_ofNat, true_and] <;> omega

theorem exists_shape_three {a b : UInt8} (ha : 0xE0 ≤ a.toNat ∧ a.toNat ≤ 0xEF)
    (hb : 0x80 ≤ b.toNat ∧ b.toNat ≤ 0xBF) (hlow : a.toNat = 0xE0 → 0xA0 ≤ b.toNat)
    (hhigh : a.toNat = 0xED → b.toNat ≤ 0x9F) :
    ∃ s, shape? a = some s ∧ s.further = 1 ∧ s.low ≤ b ∧ b ≤ s.high := by
  rw [shape?_toNat, if_neg (by omega)]
  simp only [UInt8.le_iff_toNat_le]
  split_ifs with h₁ h₂ h₃
  · exact ⟨_, rfl, rfl, hlow h₁, hb.2⟩
  · exact ⟨_, rfl, rfl, hb.1, hhigh h₂⟩
  · exact ⟨_, rfl, rfl, hb⟩
  all_goals omega

theorem exists_shape_four {a b : UInt8} (ha : 0xF0 ≤ a.toNat ∧ a.toNat ≤ 0xF4)
    (hb : 0x80 ≤ b.toNat ∧ b.toNat ≤ 0xBF) (hlow : a.toNat = 0xF0 → 0x90 ≤ b.toNat)
    (hhigh : a.toNat = 0xF4 → b.toNat ≤ 0x8F) :
    ∃ s, shape? a = some s ∧ s.further = 2 ∧ s.low ≤ b ∧ b ≤ s.high := by
  rw [shape?_toNat, if_neg (by omega), if_neg (by omega), if_neg (by omega), if_neg (by omega)]
  simp only [UInt8.le_iff_toNat_le]
  split_ifs with h₁ h₂ h₃
  · exact ⟨_, rfl, rfl, hlow h₁, hb.2⟩
  · exact ⟨_, rfl, rfl, hb⟩
  · exact ⟨_, rfl, rfl, hb.1, hhigh h₃⟩
  · omega

theorem spells_of_next {a : UInt8} {rest : List UInt8} {c : Char} {n : Nat} (h : next a rest = (some c, n)) :
    ∃ v, Spells a (rest.take n) v ∧ c = Char.ofNat v ∧ n ≤ rest.length := by
  have hle := next_le a rest
  rw [h] at hle
  cases ha : Byte.isNonAscii a with
  | false =>
    rw [next_ascii ha] at h
    cases h
    exact ⟨_, .ascii ha, rfl, hle⟩
  | true =>
    have ha' : ¬ a < 0x80 := by simpa [Byte.isNonAscii] using ha
    rw [next, if_neg ha'] at h
    cases hs : shape? a with
    | none =>
      rw [hs] at h
      cases h
    | some s =>
      rw [hs] at h
      dsimp only at h
      split at h
      next hreach =>
        rw [beq_iff_eq] at hreach
        rw [hreach] at h
        cases h
        exact ⟨_, .lead hs ((reach_eq_iff s rest).1 hreach), rfl, hle⟩
      next => cases h

namespace Spells

variable {a : UInt8} {more : List UInt8} {v : Nat}

theorem next_append (h : Spells a more v) (rest : List UInt8) :
    next a (more ++ rest) = (some (Char.ofNat v), more.length) := by
  cases h with
  | ascii ha => exact next_ascii ha _
  | @lead _ s hs hmore =>
    have hlead : ¬ a < 0x80 := by
      have hcases := shape_cases hs
      simp only [UInt8.lt_iff_toNat_lt, UInt8.toNat_ofNat]
      omega
    have htake : (more ++ rest).take (s.further + 1) = more := List.take_left' hmore.length
    have hreach : s.reach (more ++ rest) = s.further + 1 := (reach_eq_iff s _).2 (htake.symm ▸ hmore)
    simp [next, hlead, hs, hreach, htake, hmore.length]

theorem bounds (h : Spells a more v) :
    more.length = 0 ∧ v < 0x80 ∨
    more.length = 1 ∧ 0x80 ≤ v ∧ v < 0x800 ∨
    more.length = 2 ∧ 0x800 ≤ v ∧ v < 0x10000 ∧ (v < 0xD800 ∨ 0xDFFF < v) ∨
    more.length = 3 ∧ 0x10000 ≤ v ∧ v < 0x110000 := by
  cases h with
  | ascii ha =>
    simp only [Byte.isNonAscii, decide_eq_false_iff_not, UInt8.le_iff_toNat_le, UInt8.reduceToNat] at ha
    exact .inl ⟨rfl, by omega⟩
  | lead hs hmore =>
    have hlength := hmore.length
    rcases shape_cases hs with ⟨hfurther, hlead⟩ | ⟨hfurther, hlead⟩ | ⟨hfurther, hlead⟩
    · rw [hfurther] at hlength
      obtain ⟨b, rfl⟩ := List.length_eq_one_iff.1 hlength
      simp only [Shape.Completes, UInt8.le_iff_toNat_le] at hmore
      refine .inr (.inl ⟨rfl, ?_⟩)
      simp only [scalar, List.length_cons, List.length_nil, List.foldl_cons, List.foldl_nil]
      omega
    · rw [hfurther] at hlength
      obtain ⟨b, c, rfl⟩ := List.length_eq_two.1 hlength
      simp only [Shape.Completes, UInt8.le_iff_toNat_le] at hmore
      refine .inr (.inr (.inl ⟨rfl, ?_⟩))
      simp only [scalar, List.length_cons, List.length_nil, List.foldl_cons, List.foldl_nil]
      omega
    · rw [hfurther] at hlength
      obtain ⟨b, c, d, rfl⟩ := List.length_eq_three.1 hlength
      simp only [Shape.Completes, UInt8.le_iff_toNat_le] at hmore
      refine .inr (.inr (.inr ⟨rfl, ?_⟩))
      simp only [scalar, List.length_cons, List.length_nil, List.foldl_cons, List.foldl_nil]
      omega

theorem toNat_ofNat (h : Spells a more v) : (Char.ofNat v).toNat = v := by
  have hb := h.bounds
  have hv : v.isValidChar := by
    unfold Nat.isValidChar
    omega
  rw [Char.ofNat, dif_pos hv]
  rfl

theorem utf8Size (h : Spells a more v) : (Char.ofNat v).utf8Size = more.length + 1 := by
  have hb := h.bounds
  have hval : (Char.ofNat v).val.toNat = v := h.toNat_ofNat
  simp only [Char.utf8Size, UInt32.le_iff_toNat_le, hval, UInt32.toNat_ofNatLT]
  split_ifs <;> omega

end Spells

section Written

variable {v n : Nat}

theorem toNat_ofNat_of_lt (hn : n < 256) : (UInt8.ofNat n).toNat = n := by
  rw [UInt8.toNat_ofNat']
  omega

theorem isContinuation_ofNat (n : Nat) : isContinuation (UInt8.ofNat (n % 0x40 + 0x80)) = true := by
  simp only [isContinuation, Bool.and_eq_true, decide_eq_true_eq, UInt8.le_iff_toNat_le, UInt8.toNat_ofNat]
  rw [toNat_ofNat_of_lt (by omega)]
  omega

theorem Spells.of_scalar {a : UInt8} {more : List UInt8} {s : Shape} (hs : shape? a = some s)
    (hmore : s.Completes more) (hv : scalar a more = v) : Spells a more v := hv ▸ .lead hs hmore

theorem spells_one (hv : v < 0x80) : Spells (UInt8.ofNat v) [] v := by
  have hbyte := toNat_ofNat_of_lt (n := v) (by omega)
  have h : Byte.isNonAscii (UInt8.ofNat v) = false := by
    simp only [Byte.isNonAscii, decide_eq_false_iff_not, UInt8.le_iff_toNat_le, UInt8.toNat_ofNat, hbyte]
    omega
  simpa only [hbyte] using Spells.ascii h

theorem spells_two (hv : 0x80 ≤ v ∧ v < 0x800) :
    Spells (UInt8.ofNat (v / 64 % 0x20 + 0xc0)) [UInt8.ofNat (v % 0x40 + 0x80)] v := by
  have ha := toNat_ofNat_of_lt (n := v / 64 % 0x20 + 0xc0) (by omega)
  have hb := toNat_ofNat_of_lt (n := v % 0x40 + 0x80) (by omega)
  refine .of_scalar (s := ⟨0x80, 0xBF, 0⟩) ?_ ⟨?_, rfl, by simp⟩ ?_
  · rw [shape?_toNat, ha, if_pos (by omega)]
  · simp only [UInt8.le_iff_toNat_le, UInt8.toNat_ofNat, hb]
    omega
  · simp only [scalar, List.length_cons, List.length_nil, List.foldl_cons, List.foldl_nil, ha, hb]
    omega

theorem spells_three (hv : 0x800 ≤ v ∧ v < 0x10000) (hgap : v < 0xD800 ∨ 0xDFFF < v) :
    Spells (UInt8.ofNat (v / 4096 % 0x10 + 0xe0))
      [UInt8.ofNat (v / 64 % 0x40 + 0x80), UInt8.ofNat (v % 0x40 + 0x80)] v := by
  have ha := toNat_ofNat_of_lt (n := v / 4096 % 0x10 + 0xe0) (by omega)
  have hb := toNat_ofNat_of_lt (n := v / 64 % 0x40 + 0x80) (by omega)
  have hc := toNat_ofNat_of_lt (n := v % 0x40 + 0x80) (by omega)
  obtain ⟨s, hs, hfurther, hrange⟩ : ∃ s, shape? (UInt8.ofNat (v / 4096 % 0x10 + 0xe0)) = some s ∧ s.further = 1 ∧
      s.low ≤ UInt8.ofNat (v / 64 % 0x40 + 0x80) ∧ UInt8.ofNat (v / 64 % 0x40 + 0x80) ≤ s.high := by
    apply exists_shape_three <;> simp only [ha, hb] <;> omega
  refine .of_scalar hs ⟨hrange, hfurther.symm, ?_⟩ ?_
  · exact List.forall_mem_singleton.2 (isContinuation_ofNat v)
  · simp only [scalar, List.length_cons, List.length_nil, List.foldl_cons, List.foldl_nil, ha, hb, hc]
    omega

theorem spells_four (hv : 0x10000 ≤ v ∧ v < 0x110000) :
    Spells (UInt8.ofNat (v / 262144 % 0x08 + 0xf0))
      [UInt8.ofNat (v / 4096 % 0x40 + 0x80), UInt8.ofNat (v / 64 % 0x40 + 0x80),
        UInt8.ofNat (v % 0x40 + 0x80)] v := by
  have ha := toNat_ofNat_of_lt (n := v / 262144 % 0x08 + 0xf0) (by omega)
  have hb := toNat_ofNat_of_lt (n := v / 4096 % 0x40 + 0x80) (by omega)
  have hc := toNat_ofNat_of_lt (n := v / 64 % 0x40 + 0x80) (by omega)
  have hd := toNat_ofNat_of_lt (n := v % 0x40 + 0x80) (by omega)
  obtain ⟨s, hs, hfurther, hrange⟩ : ∃ s, shape? (UInt8.ofNat (v / 262144 % 0x08 + 0xf0)) = some s ∧
      s.further = 2 ∧ s.low ≤ UInt8.ofNat (v / 4096 % 0x40 + 0x80) ∧
      UInt8.ofNat (v / 4096 % 0x40 + 0x80) ≤ s.high := by
    apply exists_shape_four <;> simp only [ha, hb] <;> omega
  refine .of_scalar hs ⟨hrange, hfurther.symm, ?_⟩ ?_
  · exact List.forall_mem_cons.2 ⟨isContinuation_ofNat _, List.forall_mem_singleton.2 (isContinuation_ofNat v)⟩
  · simp only [scalar, List.length_cons, List.length_nil, List.foldl_cons, List.foldl_nil, ha, hb, hc, hd]
    omega

/-- The bytes that a character is written with spell it. -/
theorem spells_encode (c : Char) : ∃ a more, String.utf8EncodeChar c = a :: more ∧ Spells a more c.toNat := by
  have hvalid : c.toNat < 0xD800 ∨ 0xDFFF < c.toNat ∧ c.toNat < 0x110000 := c.valid
  have hc : c.val.toNat = c.toNat := rfl
  unfold String.utf8EncodeChar
  simp only [hc]
  split_ifs with h₁ h₂ h₃
  · exact ⟨_, _, rfl, spells_one (by omega)⟩
  · exact ⟨_, _, rfl, spells_two (by omega)⟩
  · exact ⟨_, _, rfl, spells_three (by omega) (by omega)⟩
  · exact ⟨_, _, rfl, spells_four (by omega)⟩

end Written

theorem encode_of_mem {b : UInt8} {c : Char} (hb : b ∈ String.utf8EncodeChar c) (hascii : Byte.isNonAscii b = false) :
    String.utf8EncodeChar c = [b] ∧ b.toNat = c.toNat := by
  obtain ⟨a, more, hc, h⟩ := spells_encode c
  rw [hc] at hb ⊢
  generalize c.toNat = v at h
  cases h with
  | ascii ha =>
    obtain rfl := List.mem_singleton.1 hb
    exact ⟨rfl, rfl⟩
  | @lead _ s hs hmore =>
    have hlead : Byte.isNonAscii a = true := by
      have hcases := shape_cases hs
      simp only [Byte.isNonAscii, decide_eq_true_eq, UInt8.le_iff_toNat_le, UInt8.toNat_ofNat]
      omega
    have hall : ∀ x ∈ a :: more, Byte.isNonAscii x = true := by
      cases more with
      | nil => exact hmore.elim
      | cons x tail =>
        obtain ⟨⟨hlow, -⟩, -, htail⟩ := hmore
        have hx : Byte.isNonAscii x = true := decide_eq_true (UInt8.le_trans (low_of_shape hs) hlow)
        exact List.forall_mem_cons.2 ⟨hlead, List.forall_mem_cons.2 ⟨hx, fun y hy ↦
          isNonAscii_of_isContinuation (htail y hy)⟩⟩
    rw [hall b hb] at hascii
    cases hascii

theorem units_encode (cs : List Char) : units (cs.flatMap String.utf8EncodeChar) = cs.map some := by
  induction cs with
  | nil => simp [units]
  | cons c cs ih =>
    obtain ⟨a, more, hc, h⟩ := spells_encode c
    rw [List.flatMap_cons, hc, List.cons_append, units, h.next_append, List.drop_left, ih, Char.ofNat_toNat]
    rfl

theorem loop_eq (bytes : ByteArray) (i : Nat) (read : List UInt8) :
    ByteArray.toList.loop bytes i read = read.reverse ++ bytes.data.toList.drop i := by
  fun_induction ByteArray.toList.loop bytes i read with
  | case1 i read hi ih =>
    have hi' : i < bytes.data.toList.length := hi
    have hget : bytes.get! i = bytes.data.toList[i] := getElem!_pos bytes.data i hi
    rw [ih, List.drop_eq_getElem_cons hi', hget, List.reverse_cons, List.append_assoc, List.singleton_append]
  | case2 i read hi =>
    rw [List.drop_eq_nil_of_le (Nat.le_of_not_lt hi), List.append_nil]

theorem bytesOf_eq (s : String) : bytesOf s = s.toList.flatMap String.utf8EncodeChar := by
  obtain ⟨cs, rfl⟩ := String.exists_eq_ofList s
  rw [bytesOf, String.toUTF8_eq_toByteArray, String.toByteArray_ofList, String.toList_ofList, List.utf8Encode,
    ByteArray.toList, loop_eq, List.toList_data_toByteArray]
  rfl

theorem lossy_bytesOf (s : String) : lossy (bytesOf s) = s := by
  rw [lossy, bytesOf_eq, units_encode, List.map_map]
  exact (congrArg String.ofList (List.map_id _)).trans String.ofList_toList

theorem isValid_cons {b : UInt8} {rest : List UInt8} (h : isValid (b :: rest) = true) :
    ∃ c n, next b rest = (some c, n) ∧ isValid (rest.drop n) = true := by
  rw [isValid, units, List.all_cons, Bool.and_eq_true] at h
  obtain ⟨c, hc⟩ := Option.isSome_iff_exists.1 h.1
  exact ⟨c, (next b rest).2, Prod.ext hc rfl, h.2⟩

/-- A text without damaged parts has the length of the bytes that it was read from. -/
theorem utf8ByteSize_lossy {bytes : List UInt8} (h : isValid bytes = true) :
    (lossy bytes).utf8ByteSize = bytes.length := by
  fun_induction units bytes with
  | case1 => simp [lossy, units]
  | case2 b rest ih =>
    obtain ⟨c, n, hnext, hrest⟩ := isValid_cons h
    obtain ⟨v, hspells, rfl, hn⟩ := spells_of_next hnext
    have hsize := hspells.utf8Size
    rw [List.length_take_of_le hn] at hsize
    have ih := ih (by rwa [hnext])
    rw [hnext, List.length_drop] at ih
    have hlossy : lossy (b :: rest) = String.singleton (Char.ofNat v) ++ lossy (rest.drop n) := by
      rw [lossy, units, hnext, List.map_cons, String.ofList_cons]
      rfl
    rw [hlossy, String.utf8ByteSize_append, String.utf8ByteSize_singleton, hsize, ih, List.length_cons]
    omega

/-- Every part at the head of a text without damaged parts is the text of a part of its bytes. -/
theorem exists_units_take {bytes : List UInt8} (h : isValid bytes = true) (k : Nat) :
    ∃ j ≤ bytes.length, units (bytes.take j) = (units bytes).take k := by
  fun_induction units bytes generalizing k with
  | case1 => exact ⟨0, Nat.le_refl 0, by simp [units]⟩
  | case2 b rest ih =>
    cases k with
    | zero => exact ⟨0, Nat.zero_le _, by simp [units]⟩
    | succ k =>
      obtain ⟨c, n, hnext, hrest⟩ := isValid_cons h
      obtain ⟨v, hspells, rfl, hn⟩ := spells_of_next hnext
      rw [hnext] at ih
      obtain ⟨j, hj, hunits⟩ := ih hrest k
      rw [List.length_drop] at hj
      refine ⟨n + j + 1, by rw [List.length_cons]; omega, ?_⟩
      have hread : next b (rest.take n ++ (rest.drop n).take j) = (some (Char.ofNat v), n) := by
        rw [hspells.next_append, List.length_take_of_le hn]
      rw [List.take_succ_cons, List.take_add, units, hread, List.take_succ_cons, hnext, ← hunits]
      rw [List.drop_left' (List.length_take_of_le hn)]

theorem eq_byte_of_next {b : UInt8} {rest : List UInt8} {c : Char} {n : Nat} (hc : c.toNat < 0x80)
    (h : next b rest = (some c, n)) : b = byte c ∧ n = 0 := by
  obtain ⟨v, hspells, rfl, hn⟩ := spells_of_next h
  have hv := hspells.toNat_ofNat
  have hsize := hspells.bounds
  rw [List.length_take_of_le hn] at hsize
  obtain rfl : n = 0 := by omega
  rw [List.take_zero] at hspells
  cases hspells with
  | ascii => exact ⟨by rw [byte, hv]; exact (UInt8.ofNat_toNat).symm, rfl⟩
  | lead _ hmore => exact hmore.elim

theorem isNonAscii_byte {c : Char} (hc : c.toNat < 0x80) : Byte.isNonAscii (byte c) = false := by
  simp only [Byte.isNonAscii, decide_eq_false_iff_not, UInt8.le_iff_toNat_le, UInt8.toNat_ofNat', UInt8.reduceToNat]
  omega

/-- A character of ASCII is a byte of its own, and what is before and after it is read apart from it. -/
theorem exists_cut_of_units {bytes : List UInt8} {front back : List (Option Char)} {c : Char} (hc : c.toNat < 0x80)
    (h : units bytes = front ++ some c :: back) :
    ∃ before after, bytes = before ++ byte c :: after ∧ units before = front ∧ units after = back := by
  induction bytes using units.induct generalizing front with
  | case1 => simp [units] at h
  | case2 b rest ih =>
    rw [units] at h
    cases front with
    | nil =>
      obtain ⟨hhead, hback⟩ := List.cons.inj h
      obtain ⟨rfl, hn⟩ := eq_byte_of_next (n := (next b rest).2) hc (Prod.ext hhead rfl)
      rw [hn, List.drop_zero] at hback
      exact ⟨[], rest, rfl, by simp [units], hback⟩
    | cons u front =>
      obtain ⟨rfl, hrest⟩ := List.cons.inj h
      obtain ⟨before, after, hdrop, rfl, rfl⟩ := ih hrest
      have hsplit : rest = rest.take (next b rest).2 ++ before ++ byte c :: after := by
        rw [List.append_assoc, ← hdrop, List.take_append_drop]
      -- No character reaches over an ASCII byte, so what comes before it is read as without it.
      have hnext : next b (rest.take (next b rest).2 ++ before) = next b rest := by
        conv_rhs => rw [hsplit]
        exact (next_append b _ _ (by simpa using isNonAscii_byte hc)).symm
      refine ⟨b :: (rest.take (next b rest).2 ++ before), after, congrArg (b :: ·) hsplit, ?_, rfl⟩
      rw [units, hnext, List.drop_left' (List.length_take_of_le (next_le b rest))]

theorem exists_cut_of_lossy {bytes : List UInt8} {front back : List Char} {c : Char} (hc : c.toNat < 0x80)
    (h : (lossy bytes).toList = front ++ c :: back) :
    ∃ before after, bytes = before ++ byte c :: after ∧ (lossy before).toList = front ∧
      (lossy after).toList = back := by
  rw [lossy, String.toList_ofList] at h
  obtain ⟨us, vs, hunits, rfl, hback⟩ := List.map_eq_append_iff.1 h
  obtain ⟨u, vs, rfl, hu, rfl⟩ := List.map_eq_cons_iff.1 hback
  have hchar : u = some c := by
    cases u with
    | none =>
      rw [← show replacement = c from hu] at hc
      exact absurd hc (by decide)
    | some d => exact congrArg some hu
  rw [hchar] at hunits
  obtain ⟨before, after, hbytes, rfl, rfl⟩ := exists_cut_of_units hc hunits
  exact ⟨before, after, hbytes, String.toList_ofList, String.toList_ofList⟩

theorem units_ascii {b : UInt8} (hb : Byte.isNonAscii b = false) (rest : List UInt8) :
    units (b :: rest) = some (Char.ofNat b.toNat) :: units rest := by
  rw [units, next_ascii hb]
  rfl

end Utf8

end CodeStyle.Text
