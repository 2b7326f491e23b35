import ModularLisp.Text.Utf8

/-!
# Texts in UTF-8 are read back

The first octet of a character asks for as many octets as are written behind it, and the range that
it sets for the next one leaves out what no character is written with: longer spellings of shorter
sequences, surrogates, and numbers that are too large.
-/

namespace ModularLisp.Text.Utf8

variable {s t : Progress} {position b n : Nat} {decoded : List Char} {p : Pending}
  {octet : UInt8} {octets : List UInt8} {c : Char}

/-- What is pending after one more octet, if that is not the last one. -/
def Pending.next (p : Pending) (b : Nat) : Pending where
  lead := p.lead
  start := p.start
  seen := p.seen + 1
  owed := p.owed - 1
  low := 0x80
  high := 0xbf
  bits := p.bits * 64 + (b - 0x80)

/-- The next octet is in the range that the first one has set for it. -/
def Pending.Admits (p : Pending) (b : Nat) : Prop := p.low ≤ b ∧ b ≤ p.high

/-- An octet behind the second one. -/
def IsTail (b : Nat) : Prop := 0x80 ≤ b ∧ b ≤ 0xbf

theorem toNat_octet (small : b < 256) : (UInt8.ofNat b).toNat = b :=
  UInt8.toNat_ofNat_of_lt small

theorem read_single (small : b < 0x80) : Progress.read ⟨position, none, decoded⟩ (.ofNat b) =
    .ok ⟨position + 1, none, Char.ofNat b :: decoded⟩ := by
  simp only [Progress.read, toNat_octet (show b < 256 by omega), if_pos small]

theorem read_lead (long : 0x80 ≤ b) (small : b < 256) (asks : Pending.ofLead? position b = some p) :
    Progress.read ⟨position, none, decoded⟩ (.ofNat b) = .ok ⟨position + 1, some p, decoded⟩ := by
  simp only [Progress.read, toNat_octet small, if_neg (Nat.not_lt_of_le long), asks]

theorem read_between (admits : p.Admits b) (small : b < 256) (more : p.owed ≠ 1) :
    Progress.read ⟨position, some p, decoded⟩ (.ofNat b) =
      .ok ⟨position + 1, some (p.next b), decoded⟩ := by
  have inside : p.low ≤ b ∧ b ≤ p.high := admits
  simp only [Progress.read, toNat_octet small, if_pos inside, if_neg more, Pending.next]

theorem read_last (admits : p.Admits b) (small : b < 256) (last : p.owed = 1) :
    Progress.read ⟨position, some p, decoded⟩ (.ofNat b) =
      .ok ⟨position + 1, none, Char.ofNat (p.next b).bits :: decoded⟩ := by
  have inside : p.low ≤ b ∧ b ≤ p.high := admits
  simp only [Progress.read, toNat_octet small, if_pos inside, if_pos last, Pending.next]

/-- The octets add one character to what has been read, and nothing is pending then. -/
def Progress.Reads (s : Progress) (octets : List UInt8) (c : Char) : Prop :=
  ∃ after, octets.foldlM Progress.read s = .ok ⟨after, none, c :: s.decoded⟩

theorem Progress.Reads.last (read : s.read octet = .ok ⟨position, none, c :: s.decoded⟩) :
    s.Reads [octet] c := by
  refine ⟨position, ?_⟩
  rw [List.foldlM_cons, read]
  rfl

theorem Progress.Reads.cons (read : s.read octet = .ok ⟨position, some p, s.decoded⟩)
    (rest : Progress.Reads ⟨position, some p, s.decoded⟩ octets c) :
    s.Reads (octet :: octets) c := by
  obtain ⟨after, rest⟩ := rest
  refine ⟨after, ?_⟩
  rw [List.foldlM_cons, read]
  exact rest

section Owed

variable {x y z : Nat}

theorem reads_one (owed : p.owed = 1) (first : p.Admits x) (small : x < 256)
    (bits : (p.next x).bits = n) :
    Progress.Reads ⟨position, some p, decoded⟩ [.ofNat x] (.ofNat n) := by
  rw [← bits]
  exact .last (read_last first small owed)

theorem reads_two (owed : p.owed = 2) (first : p.Admits x) (small : x < 256) (second : IsTail y)
    (bits : ((p.next x).next y).bits = n) :
    Progress.Reads ⟨position, some p, decoded⟩ [.ofNat x, .ofNat y] (.ofNat n) := by
  have one : (p.next x).owed = 1 := by simp only [Pending.next, owed]
  have tail : y < 256 := by have := second.2; omega
  exact .cons (read_between first small (by omega)) (reads_one one second tail bits)

theorem reads_three (owed : p.owed = 3) (first : p.Admits x) (small : x < 256) (second : IsTail y)
    (third : IsTail z) (bits : (((p.next x).next y).next z).bits = n) :
    Progress.Reads ⟨position, some p, decoded⟩ [.ofNat x, .ofNat y, .ofNat z] (.ofNat n) := by
  have two : (p.next x).owed = 2 := by simp only [Pending.next, owed]
  have tail : y < 256 := by have := second.2; omega
  exact .cons (read_between first small (by omega)) (reads_two two second tail third bits)

end Owed

/-- The first octet asks for `owed` more and begins with these bits; the range that it sets admits
the octet `second`. -/
def Asks (lead owed bits second : Nat) : Prop :=
  ∀ position, ∃ p, Pending.ofLead? position lead = some p ∧ p.owed = owed ∧ p.bits = bits ∧
    p.Admits second

theorem asks_two (low : 0x80 ≤ n) (high : n < 0x800) :
    Asks (0xc0 + n / 64) 1 (n / 64) (0x80 + n / 1 % 64) := by
  intro position
  have least : ¬ 0xc0 + n / 64 < 0xc2 := by omega
  have most : 0xc0 + n / 64 < 0xe0 := by omega
  simp only [Pending.ofLead?, if_neg least, if_pos most, Nat.add_sub_cancel_left]
  exact ⟨_, rfl, rfl, rfl, by constructor <;> dsimp only <;> omega⟩

/-- The octets after 0xe0 and 0xed are bounded because no character that has fewer octets, and no
surrogate, is written in this way. -/
theorem asks_three (low : 0x800 ≤ n) (high : n < 0x10000) (valid : n < 0xd800 ∨ 0xdfff < n) :
    Asks (0xe0 + n / 4096) 2 (n / 4096) (0x80 + n / 64 % 64) := by
  intro position
  have least : ¬ 0xe0 + n / 4096 < 0xc2 := by omega
  have two : ¬ 0xe0 + n / 4096 < 0xe0 := by omega
  have most : 0xe0 + n / 4096 < 0xf0 := by omega
  simp only [Pending.ofLead?, if_neg least, if_neg two, if_pos most]
  by_cases first : n / 4096 = 0
  · rw [first]
    exact ⟨_, rfl, rfl, rfl, by constructor <;> dsimp only <;> omega⟩
  by_cases surrogate : n / 4096 = 0xd
  · rw [surrogate]
    exact ⟨_, rfl, rfl, rfl, by constructor <;> dsimp only <;> omega⟩
  · rw [if_neg (by omega), if_neg (by omega), Nat.add_sub_cancel_left]
    exact ⟨_, rfl, rfl, rfl, by constructor <;> dsimp only <;> omega⟩

/-- The octets after 0xf0 and 0xf4 are bounded because the characters that are written in this way
begin where those of three octets end, and end with the last one that there is. -/
theorem asks_four (low : 0x10000 ≤ n) (high : n < 0x110000) :
    Asks (0xf0 + n / 262144) 3 (n / 262144) (0x80 + n / 4096 % 64) := by
  intro position
  have least : ¬ 0xf0 + n / 262144 < 0xc2 := by omega
  have two : ¬ 0xf0 + n / 262144 < 0xe0 := by omega
  have three : ¬ 0xf0 + n / 262144 < 0xf0 := by omega
  simp only [Pending.ofLead?, if_neg least, if_neg two, if_neg three]
  rw [if_neg (by omega), if_neg (by omega)]
  by_cases first : n / 262144 = 0
  · rw [first]
    exact ⟨_, rfl, rfl, rfl, by constructor <;> dsimp only <;> omega⟩
  by_cases last : n / 262144 = 4
  · rw [last]
    exact ⟨_, rfl, rfl, rfl, by constructor <;> dsimp only <;> omega⟩
  · rw [if_neg (by omega), if_pos (by omega), Nat.add_sub_cancel_left]
    exact ⟨_, rfl, rfl, rfl, by constructor <;> dsimp only <;> omega⟩

theorem isTail_sixth (n unit : Nat) : IsTail (0x80 + n / unit % 64) := by
  have short := Nat.mod_lt (n / unit) (show 0 < 64 by omega)
  constructor <;> omega

/-- A character is read back from its octets. -/
theorem reads_encodeChar (c : Char) (position : Nat) (decoded : List Char) :
    Progress.Reads ⟨position, none, decoded⟩ (encodeChar c) c := by
  have valid : c.toNat < 0xd800 ∨ 0xdfff < c.toNat ∧ c.toNat < 0x110000 := c.valid
  have char : Char.ofNat c.toNat = c := Char.ofNat_toNat c
  unfold encodeChar
  generalize c.toNat = n at valid char
  have octet : ∀ unit, 0x80 + n / unit % 64 < 256 := fun unit => by
    have := (isTail_sixth n unit).2
    omega
  dsimp only
  rw [← char]
  by_cases one : n < 0x80
  · rw [if_pos one]
    exact .last (read_single one)
  rw [if_neg one]
  by_cases two : n < 0x800
  · obtain ⟨p, asked, owed, bits, admits⟩ := asks_two (Nat.le_of_not_lt one) two position
    rw [if_pos two]
    refine .cons (read_lead (by omega) (by omega) asked) (reads_one owed admits (octet 1) ?_)
    simp only [Pending.next, bits]
    omega
  rw [if_neg two]
  by_cases three : n < 0x10000
  · obtain ⟨p, asked, owed, bits, admits⟩ :=
      asks_three (Nat.le_of_not_lt two) three (valid.imp_right And.left) position
    rw [if_pos three]
    refine .cons (read_lead (by omega) (by omega) asked)
      (reads_two owed admits (octet 64) (isTail_sixth n 1) ?_)
    simp only [Pending.next, bits]
    omega
  · obtain ⟨p, asked, owed, bits, admits⟩ :=
      asks_four (Nat.le_of_not_lt three) (by omega) position
    rw [if_neg three]
    refine .cons (read_lead (by omega) (by omega) asked)
      (reads_three owed admits (octet 4096) (isTail_sixth n 64) (isTail_sixth n 1) ?_)
    simp only [Pending.next, bits]
    omega

/-- A text is read back from its octets. -/
theorem decode_encode (cs : List Char) : decode (encode cs) = .ok cs := by
  have all : ∀ position decoded, ∃ after, (encode cs).foldlM Progress.read
      ⟨position, none, decoded⟩ = .ok ⟨after, none, cs.reverse ++ decoded⟩ := by
    induction cs with
    | nil => exact fun position decoded => ⟨position, rfl⟩
    | cons c cs ih =>
      intro position decoded
      obtain ⟨between, first⟩ := reads_encodeChar c position decoded
      obtain ⟨after, later⟩ := ih between (c :: decoded)
      refine ⟨after, ?_⟩
      rw [encode, List.flatMap_cons, List.foldlM_append, first]
      rw [List.reverse_cons, List.append_assoc]
      exact later
  obtain ⟨after, read⟩ := all 0 []
  rw [decode, Progress.start, read]
  simp [bind, Except.bind, Progress.finish]

end ModularLisp.Text.Utf8
