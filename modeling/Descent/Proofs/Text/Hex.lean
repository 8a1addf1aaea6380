import Descent.Proofs.Text.CodePoint
import Descent.Proofs.Text.Utf8
import Descent.Text.Hex
import Mathlib.Data.List.Forall2
import Mathlib.Data.Nat.Digits.Lemmas

/-!
# Hexadecimal numbers

A text **spells** a number if its bytes are hexadecimal digits, of either case, and
the number is their value to the base sixteen. Reading gives that number modulo
`2 ^ 32`, as a signed one, and refuses exactly the texts that spell none.

* `answer_eq_number_iff`: which number is read.
* `answer_eq_error_iff`: which texts are refused, and why.
* `answer_zeros_append`, `answer_sameLetters`: leading zeros and the case of
  letters make no difference.
* `spells_hexDigits`: written digits spell what they were written from.
* `message_injective`: the wording of an error tells the byte.
-/

namespace Descent.Hex

/-! ## Digits -/

/-- The sixteen digits, with small letters. -/
def smallDigits : Text := utf8 "0123456789abcdef"

/-- The sixteen digits, with capital letters. -/
def capitalDigits : Text := utf8 "0123456789ABCDEF"

/-- **A digit and its value**, its place among the sixteen. -/
def Digit (b : UInt8) (d : Nat) : Prop := smallDigits[d]? = some b ∨ capitalDigits[d]? = some b

instance (b : UInt8) (d : Nat) : Decidable (Digit b d) := inferInstanceAs (Decidable (_ ∨ _))

/-- A byte is a digit, of whatever value. -/
def IsDigit (b : UInt8) : Prop := ∃ d, Digit b d

/-- What holds of the first 256 numbers holds of all bytes. -/
theorem forall_byte {p : UInt8 → Prop} (h : ∀ n < 256, p (.ofNat n)) (b : UInt8) : p b := by
  have hb := h b.toNat b.toNat_lt
  rwa [UInt8.ofNat_toNat] at hb

theorem Digit.lt {b : UInt8} {d : Nat} (h : Digit b d) : d < 16 := by
  rcases h with h | h <;> exact (List.getElem?_eq_some_iff.1 h).1

/-- A byte is taken for the digit that it stands for. -/
theorem digit?_eq_some_iff {b : UInt8} {d : Nat} : digit? b = some d ↔ Digit b d := by
  constructor
  · have key : ∀ n < 256, ∀ d ∈ digit? (.ofNat n), Digit (.ofNat n) d := by decide +kernel
    exact forall_byte (p := fun b => ∀ d ∈ digit? b, Digit b d) key b d
  · intro h
    have key : ∀ d < 16, (∀ b ∈ smallDigits[d]?, digit? b = some d) ∧
        ∀ b ∈ capitalDigits[d]?, digit? b = some d := by decide +kernel
    rcases h with hb | hb
    · exact (key d (Digit.lt (.inl hb))).1 b hb
    · exact (key d (Digit.lt (.inr hb))).2 b hb

theorem digit?_eq_none_iff {b : UInt8} : digit? b = none ↔ ¬ IsDigit b := by
  rw [Option.eq_none_iff_forall_ne_some, IsDigit, not_exists]
  exact forall_congr' fun d => not_congr digit?_eq_some_iff

/-! ## Numbers -/

/-- **A text spells a number**: its bytes are digits, the most significant first. -/
def Spells (t : Text) (n : Nat) : Prop :=
  ∃ ds, List.Forall₂ Digit t ds ∧ n = Nat.ofDigits 16 ds.reverse

/-- **Why a text spells no number**: it is empty, or has a byte that is no digit, of which the
first one counts. -/
inductive Refuses : Text → ReadError → Prop where
  | empty : Refuses [] .empty
  | badDigit {before after : Text} {b : UInt8} :
      (∀ c ∈ before, IsDigit c) → ¬ IsDigit b → Refuses (before ++ b :: after) (.badDigit b)

/-- What 32 bits keep of a number, the highest of them being the sign. -/
def wrapped (n : Nat) : Int := (BitVec.ofNat 32 n).toInt

/-- A wrapped number is the balanced remainder by `2 ^ 32`. -/
theorem wrapped_eq (n : Nat) : wrapped n = (n : Int).bmod 0x100000000 := BitVec.toInt_ofNat n

theorem wrapped_of_lt {n : Nat} (h : n < 0x80000000) : wrapped n = n := by
  rw [wrapped_eq, Int.bmod_def]
  omega

/-- The value of digits, as it grows from left to right. -/
theorem ofDigits_reverse (ds : List Nat) :
    Nat.ofDigits 16 ds.reverse = ds.foldl (fun n d => n * 16 + d) 0 := by
  rw [Nat.ofDigits_eq_foldr, List.foldr_reverse]
  congr 1
  funext n d
  rw [Nat.cast_id, Nat.add_comm, Nat.mul_comm]

theorem lt_of_mem_digits {t : Text} {ds : List Nat} (h : List.Forall₂ Digit t ds) :
    ∀ d ∈ ds, d < 16 := by
  induction h with
  | nil => exact fun d hd => nomatch hd
  | cons hb _ ih => exact List.forall_mem_cons.2 ⟨hb.lt, ih⟩

/-- A number is less than the power of sixteen with as many zeros as it has digits. -/
theorem Spells.lt {t : Text} {n : Nat} (h : Spells t n) : n < 16 ^ t.length := by
  obtain ⟨ds, hds, rfl⟩ := h
  rw [hds.length_eq, ← List.length_reverse]
  refine Nat.ofDigits_lt_base_pow_length (by decide) fun d hd => ?_
  exact lt_of_mem_digits hds d (List.mem_reverse.1 hd)

/-- One more digit multiplies by sixteen and adds. -/
theorem Spells.concat {t : Text} {n d : Nat} {b : UInt8} (h : Spells t n) (hb : Digit b d) :
    Spells (t ++ [b]) (n * 16 + d) := by
  obtain ⟨ds, hds, rfl⟩ := h
  refine ⟨ds ++ [d], List.rel_append hds (.cons hb .nil), ?_⟩
  rw [ofDigits_reverse, ofDigits_reverse, List.foldl_append]
  rfl

theorem exists_spells {t : Text} (h : ∀ b ∈ t, IsDigit b) : ∃ n, Spells t n := by
  induction t with
  | nil => exact ⟨0, [], .nil, rfl⟩
  | cons b t ih =>
    obtain ⟨⟨d, hb⟩, ht⟩ := List.forall_mem_cons.1 h
    obtain ⟨n, ds, hds, -⟩ := ih ht
    exact ⟨_, d :: ds, .cons hb hds, rfl⟩

theorem isDigit_of_spells {t : Text} {n : Nat} (h : Spells t n) : ∀ b ∈ t, IsDigit b := by
  obtain ⟨ds, hds, -⟩ := h
  induction hds with
  | nil => exact fun b hb => nomatch hb
  | cons hb _ ih => exact List.forall_mem_cons.2 ⟨⟨_, hb⟩, ih⟩

/-- If not all bytes are digits, there is a first one that is none. -/
theorem exists_refuses {t : Text} {b : UInt8} (hb : b ∈ t) (hbad : ¬ IsDigit b) :
    ∃ c, Refuses t (.badDigit c) := by
  induction t with
  | nil => cases hb
  | cons c t ih =>
    by_cases hc : IsDigit c
    · have hbt : b ∈ t := (List.mem_cons.1 hb).resolve_left fun he => hbad (he ▸ hc)
      obtain ⟨x, hx⟩ := ih hbt
      cases hx with
      | @badDigit before after _ hbefore hx =>
        have hdigits : ∀ d ∈ c :: before, IsDigit d := List.forall_mem_cons.2 ⟨hc, hbefore⟩
        exact ⟨x, @Refuses.badDigit (c :: before) after x hdigits hx⟩
    · exact ⟨c, @Refuses.badDigit [] t c (fun x hx => nomatch hx) hc⟩

/-- A text spells a number, or there is a reason why it does not. -/
theorem spells_or_refuses (t : Text) : (t ≠ [] ∧ ∃ n, Spells t n) ∨ ∃ e, Refuses t e := by
  by_cases ht : t = []
  · subst ht
    exact .inr ⟨_, .empty⟩
  by_cases hall : ∀ b ∈ t, IsDigit b
  · exact .inl ⟨ht, exists_spells hall⟩
  · obtain ⟨b, hb, hbad⟩ : ∃ b ∈ t, ¬ IsDigit b := by simpa using hall
    obtain ⟨c, hc⟩ := exists_refuses hb hbad
    exact .inr ⟨_, hc⟩

/-- What is refused is empty, or has a byte that is no digit. -/
theorem Refuses.eq_nil_or_exists {t : Text} {e : ReadError} (h : Refuses t e) :
    t = [] ∨ ∃ b ∈ t, ¬ IsDigit b := by
  cases h with
  | empty => exact .inl rfl
  | badDigit _ hb => exact .inr ⟨_, List.mem_append_right _ List.mem_cons_self, hb⟩

/-! ## Reading -/

theorem readFrom_cons {b : UInt8} {d : Nat} (h : Digit b d) (v : Int) (t : Text) :
    readFrom v (b :: t) = readFrom (push v d) t := by
  rw [readFrom, digit?_eq_some_iff.2 h]

/-- One more digit. -/
theorem push_wrapped (n d : Nat) : push (wrapped n) d = wrapped (n * 16 + d) := by
  rw [push, wrapped_eq, wrapped_eq, Int.bmod_def, Int.bmod_def, Int.bmod_def]
  omega

/-- All digits, after a number that was read already. -/
theorem readFrom_wrapped {t : Text} {ds : List Nat} (h : List.Forall₂ Digit t ds) (n : Nat) :
    readFrom (wrapped n) t = .ok (wrapped (ds.foldl (fun n d => n * 16 + d) n)) := by
  induction h generalizing n with
  | nil => rfl
  | cons hb _ ih => rw [readFrom_cons hb, push_wrapped, ih, List.foldl_cons]

/-- After digits, a byte that is none is reported. -/
theorem readFrom_badDigit {before : Text} (h : ∀ c ∈ before, IsDigit c) {b : UInt8}
    (hb : ¬ IsDigit b) (after : Text) (v : Int) :
    readFrom v (before ++ b :: after) = .error (.badDigit b) := by
  induction before generalizing v with
  | nil => rw [List.nil_append, readFrom, digit?_eq_none_iff.2 hb]
  | cons c before ih =>
    obtain ⟨⟨d, hd⟩, hbefore⟩ := List.forall_mem_cons.1 h
    rw [List.cons_append, readFrom_cons hd]
    exact ih hbefore _

theorem read_eq_readFrom {t : Text} (h : t ≠ []) : read t = readFrom 0 t := by
  obtain ⟨b, t, rfl⟩ := List.exists_cons_of_ne_nil h
  rfl

/-- A number is read as it is spelled, wrapped. -/
theorem read_of_spells {t : Text} {n : Nat} (ht : t ≠ []) (h : Spells t n) :
    read t = .ok (wrapped n) := by
  obtain ⟨ds, hds, rfl⟩ := h
  have h0 : (0 : Int) = wrapped 0 := rfl
  rw [read_eq_readFrom ht, h0, readFrom_wrapped hds, ofDigits_reverse]

/-- What is refused is reported as such. -/
theorem read_of_refuses {t : Text} {e : ReadError} (h : Refuses t e) : read t = .error e := by
  cases h with
  | empty => rfl
  | @badDigit before after b hbefore hb =>
    have hne : before ++ b :: after ≠ [] :=
      List.append_ne_nil_of_right_ne_nil _ (List.cons_ne_nil _ _)
    rw [read_eq_readFrom hne, readFrom_badDigit hbefore hb]

/-- The answer to a number is that number, wrapped, and no error. -/
theorem answer_of_spells {t : Text} {n : Nat} (ht : t ≠ []) (h : Spells t n) :
    answer t = (wrapped n, none) := by
  rw [answer, read_of_spells ht h]

/-- The answer to what is refused is zero, and the error. -/
theorem answer_of_refuses {t : Text} {e : ReadError} (h : Refuses t e) :
    answer t = (0, some e) := by
  rw [answer, read_of_refuses h]

/-- **The number that is read** from a text. -/
theorem answer_eq_number_iff {t : Text} {v : Int} :
    answer t = (v, none) ↔ t ≠ [] ∧ ∃ n, Spells t n ∧ v = wrapped n := by
  constructor
  · intro h
    rcases spells_or_refuses t with ⟨ht, n, hn⟩ | ⟨e, he⟩
    · rw [answer_of_spells ht hn] at h
      exact ⟨ht, n, hn, (Prod.mk.inj h).1.symm⟩
    · rw [answer_of_refuses he] at h
      cases h
  · rintro ⟨ht, n, hn, rfl⟩
    exact answer_of_spells ht hn

/-- Of nine digits, the first one is lost, and the sign is set. -/
example : answer (utf8 "1ffffFFFF") = (-1, none) := by decide

/-- **The texts that are refused**, with zero for a number. -/
theorem answer_eq_error_iff {t : Text} {v : Int} {e : ReadError} :
    answer t = (v, some e) ↔ v = 0 ∧ Refuses t e := by
  constructor
  · intro h
    rcases spells_or_refuses t with ⟨ht, n, hn⟩ | ⟨e', he'⟩
    · rw [answer_of_spells ht hn] at h
      cases h
    · rw [answer_of_refuses he'] at h
      cases h
      exact ⟨rfl, he'⟩
  · rintro ⟨rfl, he⟩
    exact answer_of_refuses he

/-- **When a text is refused.** -/
theorem answer_fails_iff {t : Text} :
    (answer t).2 ≠ none ↔ t = [] ∨ ∃ b ∈ t, ¬ IsDigit b := by
  constructor
  · intro h
    rcases spells_or_refuses t with ⟨ht, n, hn⟩ | ⟨e, he⟩
    · rw [answer_of_spells ht hn] at h
      exact absurd rfl h
    · exact he.eq_nil_or_exists
  · intro h hnone
    obtain ⟨ht, n, hn, -⟩ := answer_eq_number_iff.1 (Prod.ext rfl hnone)
    rcases h with rfl | ⟨b, hb, hbad⟩
    · exact ht rfl
    · exact hbad (isDigit_of_spells hn b hb)

/-- Up to seven digits, nothing is lost. -/
theorem answer_of_length_le {t : Text} {n : Nat} (ht : t ≠ []) (hlen : t.length ≤ 7)
    (h : Spells t n) : answer t = ((n : Int), none) := by
  have hlt : n < 0x80000000 :=
    calc n < 16 ^ t.length := h.lt
      _ ≤ 16 ^ 7 := Nat.pow_le_pow_right (by decide) hlen
      _ < 0x80000000 := by decide
  rw [answer_of_spells ht h, wrapped_of_lt hlt]

/-! ## Zeros and letters -/

/-- Zeros at the beginning make no difference. -/
theorem readFrom_zeros_append (k : Nat) (t : Text) :
    readFrom 0 (List.replicate k 0x30 ++ t) = readFrom 0 t := by
  induction k with
  | zero => rfl
  | succ k ih =>
    have hzero : Digit 0x30 0 := by decide
    rw [List.replicate_succ, List.cons_append, readFrom_cons hzero]
    exact ih

/-- **Leading zeros make no difference**, neither to a number nor to an error. -/
theorem answer_zeros_append (k : Nat) {t : Text} (ht : t ≠ []) :
    answer (List.replicate k 0x30 ++ t) = answer t := by
  have hne : List.replicate k 0x30 ++ t ≠ [] := List.append_ne_nil_of_right_ne_nil _ ht
  rw [answer, answer, read_eq_readFrom hne, read_eq_readFrom ht, readFrom_zeros_append]

/-- The byte with a capital letter made small. -/
def small (b : UInt8) : UInt8 := if 0x41 ≤ b ∧ b ≤ 0x5A then b + 0x20 else b

/-- Two bytes are the same but for the case of a letter. -/
def SameLetter (b c : UInt8) : Prop := small b = small c

/-- A letter may be large or small. -/
theorem digit?_small (b : UInt8) : digit? (small b) = digit? b :=
  forall_byte (p := fun b => digit? (small b) = digit? b) (by decide +kernel) b

/-- The same letter stands for the same digit. -/
theorem SameLetter.digit {b c : UInt8} {d : Nat} (h : SameLetter b c) (hb : Digit b d) :
    Digit c d := by
  rw [← digit?_eq_some_iff, ← digit?_small] at hb ⊢
  rwa [← show small b = small c from h]

/-- The same letters spell the same number. -/
theorem Spells.sameLetters {t u : Text} {n : Nat} (hs : Spells t n)
    (h : List.Forall₂ SameLetter t u) : Spells u n := by
  obtain ⟨ds, hds, rfl⟩ := hs
  refine ⟨ds, ?_, rfl⟩
  induction h generalizing ds with
  | nil => exact hds
  | cons hbc _ ih =>
    cases hds with
    | cons hb hds => exact .cons (hbc.digit hb) (ih _ hds)

theorem SameLetter.symm {b c : UInt8} (h : SameLetter b c) : SameLetter c b := Eq.symm h

/-- **The case of letters makes no difference**: the same texts are refused, and the same numbers
are read. -/
theorem answer_sameLetters {t u : Text} (h : List.Forall₂ SameLetter t u) :
    (answer t).1 = (answer u).1 ∧ ((answer t).2 = none ↔ (answer u).2 = none) := by
  have hback : List.Forall₂ SameLetter u t := (h.imp fun _ _ => SameLetter.symm).flip
  have hlen := h.length_eq
  have hne (ht : t ≠ []) : u ≠ [] := by
    rintro rfl
    exact ht (List.eq_nil_of_length_eq_zero hlen)
  rcases spells_or_refuses t with ⟨ht, n, hn⟩ | ⟨e, he⟩
  · rw [answer_of_spells ht hn, answer_of_spells (hne ht) (hn.sameLetters h)]
    exact ⟨rfl, Iff.rfl⟩
  · rcases spells_or_refuses u with ⟨hu, n, hn⟩ | ⟨e', he'⟩
    · have ht : t ≠ [] := by
        rintro rfl
        exact hu (List.eq_nil_of_length_eq_zero hlen.symm)
      have hanswer := answer_of_spells ht (hn.sameLetters hback)
      rw [answer_of_refuses he] at hanswer
      exact absurd (congrArg Prod.snd hanswer) (Option.some_ne_none e)
    · rw [answer_of_refuses he, answer_of_refuses he']
      exact ⟨rfl, iff_of_false (Option.some_ne_none _) (Option.some_ne_none _)⟩

/-! ## Written digits -/

theorem encodeChar_digitChar {d : Nat} (h : d < 16) :
    Utf8.encodeChar (Nat.digitChar d) = [.ofNat (Nat.digitChar d).toNat] := by
  have key : ∀ d < 16, (Nat.digitChar d).toNat < 0x80 := by decide
  exact Utf8.encodeChar_of_ascii (key d h)

theorem digit_digitChar {d : Nat} (h : d < 16) : Digit (.ofNat (Nat.digitChar d).toNat) d := by
  have key : ∀ d < 16, Digit (.ofNat (Nat.digitChar d).toNat) d := by decide
  exact key d h

/-- **Written digits spell the number** that they were written from, as far as they go. -/
theorem spells_hexDigits (width n : Nat) :
    Spells (Utf8.encode (hexDigits width n)) (n % 16 ^ width) := by
  induction width generalizing n with
  | zero => exact ⟨[], .nil, Nat.mod_one n⟩
  | succ width ih =>
    have hlt : n % 16 < 16 := Nat.mod_lt n (by decide)
    have hvalue : n % 16 ^ (width + 1) = n / 16 % 16 ^ width * 16 + n % 16 := by
      rw [Nat.pow_succ', Nat.mod_mul]
      omega
    rw [hexDigits, Utf8.encode_append, Utf8.encode_cons, encodeChar_digitChar hlt, hvalue]
    exact (ih (n / 16)).concat (digit_digitChar hlt)

theorem encode_hexDigits_ne_nil {width : Nat} (h : 0 < width) (n : Nat) :
    Utf8.encode (hexDigits width n) ≠ [] := by
  obtain ⟨width, rfl⟩ := Nat.exists_eq_succ_of_ne_zero (Nat.ne_of_gt h)
  rw [hexDigits, Utf8.encode_append, Utf8.encode_cons]
  exact List.append_ne_nil_of_right_ne_nil _
    (List.append_ne_nil_of_left_ne_nil (Utf8.encodeChar_ne_nil _) _)

/-- **Written digits are read back**, if there are enough of them and the number is small enough. -/
theorem answer_hexDigits {width n : Nat} (hw : 0 < width) (hn : n < 16 ^ width)
    (hsmall : n < 0x80000000) : answer (Utf8.encode (hexDigits width n)) = ((n : Int), none) := by
  have hs := spells_hexDigits width n
  rw [Nat.mod_eq_of_lt hn] at hs
  rw [answer_of_spells (encode_hexDigits_ne_nil hw n) hs, wrapped_of_lt hsmall]

/-! ## The wording of errors -/

/-- The number of the character that is shown between quotation marks. -/
def shown : List Char → Int
  | [x] => x.toNat
  | ['\\', x] =>
    match x with
    | 'a' => 0x07
    | 'b' => 0x08
    | 'f' => 0x0C
    | 'n' => 0x0A
    | 'r' => 0x0D
    | 't' => 0x09
    | 'v' => 0x0B
    | x => x.toNat
  | _ :: _ :: ds => (answer (Utf8.encode ds)).1
  | [] => 0

/-- A letter after a backslash shows the number of its character. -/
theorem shown_controlLetter {c letter : Char} (h : Quoted.controlLetter? c = some letter) :
    shown ['\\', letter] = c.toNat := by
  unfold Quoted.controlLetter? at h
  split at h
  case h_8 => cases h
  all_goals
    rename_i hc
    obtain rfl := Option.some.inj h
    rw [hc]
    rfl

/-- Digits after an escape show the number that they were written from. -/
theorem shown_hexDigits (x y : Char) {width n : Nat} (hw : 0 < width) (hn : n < 16 ^ width)
    (hsmall : n < 0x80000000) : shown (x :: y :: hexDigits width n) = n := by
  have hread := answer_hexDigits hw hn hsmall
  cases hds : hexDigits width n with
  | nil =>
    rw [← length_hexDigits width n, hds] at hw
    cases hw
  | cons d ds =>
    rw [hds] at hread
    exact congrArg Prod.fst hread

/-- A character between single quotes can be told from what is shown. -/
theorem shown_escapeChar (c : Char) : shown (Quoted.escapeChar '\'' c) = c.toNat := by
  have hmax : c.toNat < 0x110000 := Utf8.toNat_lt c
  unfold Quoted.escapeChar
  split
  · rename_i hmark
    simp only [Bool.or_eq_true, beq_iff_eq] at hmark
    rcases hmark with rfl | rfl
    · rfl
    · rfl
  split
  · rfl
  split
  · rename_i letter hletter
    exact shown_controlLetter hletter
  split
  · rename_i hlow
    simp only [Bool.or_eq_true, decide_eq_true_eq, beq_iff_eq] at hlow
    exact shown_hexDigits _ _ (by decide) (by omega) (by omega)
  split
  · exact shown_hexDigits _ _ (by decide) (by omega) (by omega)
  · exact shown_hexDigits _ _ (by decide) (by omega) (by omega)

/-- Different bytes are quoted differently. -/
theorem quotedChar_injective : Function.Injective Quoted.char := by
  intro c c' h
  have hchars := congrArg Utf8.decode h
  rw [Quoted.char, Quoted.char, Utf8.decode_encode, Utf8.decode_encode] at hchars
  have hescape := List.append_cancel_right (List.cons.inj hchars).2
  have hnumber := congrArg shown hescape
  rw [shown_escapeChar, shown_escapeChar] at hnumber
  exact Char.toNat_inj.1 (Int.ofNat.inj hnumber)

theorem toNat_ofNat_byte (b : UInt8) : (Char.ofNat b.toNat).toNat = b.toNat := by
  have hb := b.toNat_lt
  obtain ⟨c, hc⟩ := CodePoint.exists_char (n := b.toNat) (.inl (by omega))
  rw [← hc, Char.ofNat_toNat]

theorem message_empty_ne (b : UInt8) :
    ReadError.message .empty ≠ ReadError.message (.badDigit b) := by
  have hempty : (ReadError.message .empty).head? = some 0x65 := rfl
  have hbad : (ReadError.message (.badDigit b)).head? = some 0x69 := rfl
  intro h
  rw [h, hbad] at hempty
  exact absurd hempty (by decide)

/-- **The wording of an error tells what is wrong**, down to the byte. -/
theorem message_injective : Function.Injective ReadError.message := by
  intro e e' h
  cases e with
  | empty =>
    cases e' with
    | empty => rfl
    | badDigit b => exact absurd h (message_empty_ne b)
  | badDigit b =>
    cases e' with
    | empty => exact absurd h.symm (message_empty_ne b)
    | badDigit b' =>
      have hnumber := congrArg Char.toNat (quotedChar_injective (List.append_cancel_left h))
      rw [toNat_ofNat_byte, toNat_ofNat_byte] at hnumber
      rw [UInt8.toNat_inj.1 hnumber]

/-! ## All together -/

/-- **What reading a text as a number gives.** -/
structure Answered (t : Text) : Prop where
  /-- It fails exactly on an empty text and at a byte that is no digit. -/
  fails_iff : (answer t).2 ≠ none ↔ t = [] ∨ ∃ b ∈ t, ¬ IsDigit b
  /-- A failure comes with zero, and with the first byte that is no digit. -/
  error_iff : ∀ v e, answer t = (v, some e) ↔ v = 0 ∧ Refuses t e
  /-- A success comes with what 32 bits keep of the number that the text spells. -/
  number_iff : ∀ v, answer t = (v, none) ↔ t ≠ [] ∧ ∃ n, Spells t n ∧ v = wrapped n
  /-- Of seven digits or fewer, they keep everything. -/
  short : t ≠ [] → t.length ≤ 7 → ∀ n, Spells t n → answer t = ((n : Int), none)
  /-- Leading zeros make no difference. -/
  zeros : t ≠ [] → ∀ k, answer (List.replicate k 0x30 ++ t) = answer t
  /-- Nor does the case of letters. -/
  letters : ∀ u, List.Forall₂ SameLetter t u →
    (answer t).1 = (answer u).1 ∧ ((answer t).2 = none ↔ (answer u).2 = none)

theorem answered (t : Text) : Answered t where
  fails_iff := answer_fails_iff
  error_iff _ _ := answer_eq_error_iff
  number_iff _ := answer_eq_number_iff
  short ht hlen _ hn := answer_of_length_le ht hlen hn
  zeros ht k := answer_zeros_append k ht
  letters _ h := answer_sameLetters h

end Descent.Hex
