/-
The key space of meta_cf, and the keys of extents.

# The formats

A directory entry's text determines its parent and its name: the first
underscore ends the decimal number. Texts have no NUL byte, while the 8
bytes of an inode number below 0x0101010101010101 always have one, so
the two formats stay apart for the first 2^56 numbers. The superblock's
and the seed's keys differ from both by their first byte and their
length.

# The prefix extractor

`ExtPrefixExtrator` returns the last half of an extent's key, the inode
number. The last section compares that with the three laws RocksDB asks
of a prefix extractor.
-/
import ViveNas.Keys
import ViveNas.Lib.PrefixScan

namespace ViveNas

open LittleEndian

-- ============================================================= the text

theorem digit_bounds {c : Char} (h : c.isDigit = true) :
    48 ≤ c.toNat ∧ c.toNat ≤ 57 := by
  rw [Char.isDigit, Bool.and_eq_true, decide_eq_true_eq,
    decide_eq_true_eq] at h
  exact h

/-- Decimal text has nothing but digits. -/
theorem mem_formatNat {n : Nat} {b : UInt8} (h : b ∈ formatNat n) :
    48 ≤ b.toNat ∧ b.toNat ≤ 57 := by
  obtain ⟨c, hc, rfl⟩ := List.mem_map.mp h
  have hdigit := digit_bounds
    (Nat.isDigit_of_mem_toDigits (by decide) (by decide) hc)
  rw [UInt8.toNat_ofNat', Nat.mod_eq_of_lt (by omega)]
  exact hdigit

/-- A number can be read back from its text. -/
theorem formatNat_inj {m n : Nat} (h : formatNat m = formatNat n) :
    m = n := by
  -- each digit can be read back from its byte
  have hback : ∀ k, (formatNat k).map (fun b => Char.ofNat b.toNat)
      = Nat.toDigits 10 k := by
    intro k
    rw [formatNat, List.map_map]
    conv_rhs => rw [← List.map_id (Nat.toDigits 10 k)]
    apply List.map_congr_left
    intro c hc
    have hdigit := digit_bounds
      (Nat.isDigit_of_mem_toDigits (by decide) (by decide) hc)
    show Char.ofNat (UInt8.ofNat c.toNat).toNat = c
    rw [UInt8.toNat_ofNat', Nat.mod_eq_of_lt (by omega), Char.ofNat_toNat]
  have hdigits := congrArg (List.map fun b => Char.ofNat b.toNat) h
  rw [hback, hback] at hdigits
  rw [← Nat.ofDigitChars_ten_toDigits (n := m), hdigits,
    Nat.ofDigitChars_ten_toDigits]

theorem formatNat_ne_nil (n : Nat) : formatNat n ≠ [] := by
  rw [formatNat, Ne, List.map_eq_nil_iff]
  exact Nat.toDigits_ne_nil

/-- `%ld` prints digits, and a minus sign in front of them. -/
theorem mem_formatLd {i : Int} {b : UInt8} (h : b ∈ formatLd i) :
    b.toNat = 45 ∨ 48 ≤ b.toNat ∧ b.toNat ≤ 57 := by
  rw [formatLd] at h
  split at h
  · rcases List.mem_cons.mp h with rfl | h
    · exact Or.inl rfl
    · exact Or.inr (mem_formatNat h)
  · exact Or.inr (mem_formatNat h)

/-- So can a signed one. -/
theorem formatLd_inj {i j : Int} (h : formatLd i = formatLd j) : i = j := by
  -- a minus sign is no digit, so the signs agree
  have hsign : ∀ (m n : Nat), 45 :: formatNat m ≠ formatNat n := by
    intro m n heq
    have hmem : (45 : UInt8) ∈ formatNat n := heq ▸ List.mem_cons_self ..
    have := (mem_formatNat hmem).1
    simp at this
  rw [formatLd, formatLd] at h
  split at h <;> split at h
  · have habs := formatNat_inj (List.cons_inj_right _ |>.mp h)
    omega
  · exact absurd h (hsign _ _)
  · exact absurd h.symm (hsign _ _)
  · have habs := formatNat_inj h
    omega

/-- So the first underscore of a key is the separator. -/
theorem underscore_notMem_formatLd (i : Int) : underscore ∉ formatLd i := by
  intro h
  have := mem_formatLd h
  simp [underscore] at this

/-- A text is split where its separator first stands. -/
theorem split_at_separator {α : Type} {x : α} {a b s t : List α}
    (ha : x ∉ a) (hb : x ∉ b) (h : a ++ x :: s = b ++ x :: t) :
    a = b ∧ s = t := by
  induction a generalizing b with
  | nil =>
      cases b with
      | nil => exact ⟨rfl, (List.cons_inj_right x).mp h⟩
      | cons y b =>
          rw [List.nil_append, List.cons_append, List.cons.injEq] at h
          exact absurd (h.1 ▸ List.mem_cons_self ..) hb
  | cons y a ih =>
      cases b with
      | nil =>
          rw [List.nil_append, List.cons_append, List.cons.injEq] at h
          exact absurd (h.1 ▸ List.mem_cons_self ..) ha
      | cons y' b =>
          rw [List.cons_append, List.cons_append, List.cons.injEq] at h
          obtain ⟨hab, hst⟩ := ih (fun hm => ha (List.mem_cons_of_mem _ hm))
            (fun hm => hb (List.mem_cons_of_mem _ hm)) h.2
          exact ⟨by rw [h.1, hab], hst⟩

-- ================================================================ entries

theorem dirPrefix_append (p : Int) (rest : Bytes) :
    dirPrefix p ++ rest = formatLd p ++ underscore :: rest := by
  rw [dirPrefix, List.append_assoc]
  rfl

/-- An entry's key determines the entry. -/
theorem fileKey_inj {p q : Int} {m n : FileName}
    (h : fileKey p m = fileKey q n) : p = q ∧ m = n := by
  rw [fileKey, fileKey, dirPrefix_append, dirPrefix_append] at h
  obtain ⟨hpq, hmn⟩ := split_at_separator (underscore_notMem_formatLd p)
    (underscore_notMem_formatLd q) h
  exact ⟨formatLd_inj hpq, Subtype.ext hmn⟩

/-- A directory's prefix starts the keys of its own entries only. -/
theorem dirPrefix_prefix_iff {p q : Int} {n : FileName} :
    dirPrefix p <+: fileKey q n ↔ p = q := by
  constructor
  · rintro ⟨rest, hrest⟩
    rw [fileKey, dirPrefix_append, dirPrefix_append] at hrest
    exact formatLd_inj (split_at_separator (underscore_notMem_formatLd p)
      (underscore_notMem_formatLd q) hrest).1
  · rintro rfl
    exact List.prefix_append _ _

/-- The first byte of an entry's key: a sign or a digit. -/
theorem fileKey_head {p : Int} {n : FileName} :
    ∃ b rest, fileKey p n = b :: rest
      ∧ (b.toNat = 45 ∨ 48 ≤ b.toNat ∧ b.toNat ≤ 57) := by
  have hne : formatLd p ≠ [] := by
    rw [formatLd]
    split
    · exact List.cons_ne_nil _ _
    · exact formatNat_ne_nil _
  obtain ⟨b, rest, hb⟩ := List.exists_cons_of_ne_nil hne
  refine ⟨b, rest ++ underscore :: n.val, ?_,
    mem_formatLd (hb ▸ List.mem_cons_self ..)⟩
  rw [fileKey, dirPrefix_append, hb]
  rfl

/-- An entry's key starts with a digit or a minus sign, and neither of the
two fixed keys does. -/
theorem fileKey_ne_superblockKey (p : Int) (n : FileName) :
    fileKey p n ≠ superblockKey := by
  obtain ⟨b, rest, hkey, hb⟩ := fileKey_head (p := p) (n := n)
  intro h
  rw [hkey] at h
  have hhead : b = 118 := (List.cons.inj h).1
  subst hhead
  simp at hb

theorem fileKey_ne_inodeSeedKey (p : Int) (n : FileName) :
    fileKey p n ≠ inodeSeedKey := by
  obtain ⟨b, rest, hkey, hb⟩ := fileKey_head (p := p) (n := n)
  intro h
  rw [hkey] at h
  have hhead : b = 95 := (List.cons.inj h).1
  subst hhead
  simp at hb

/-- Neither the number's text nor a name has a NUL byte. -/
theorem zero_notMem_fileKey (p : Int) (n : FileName) :
    (0 : UInt8) ∉ fileKey p n := by
  rw [fileKey, dirPrefix_append]
  intro h
  rcases List.mem_append.mp h with h | h
  · have := mem_formatLd h
    simp at this
  · rcases List.mem_cons.mp h with h | h
    · simp [underscore] at h
    · exact n.property h

-- ========================================================== inode records

@[simp] theorem inodeKey_length (n : Nat) : (inodeKey n).length = 8 :=
  leBytes_length 8 n

/-- The two fixed keys are longer than a record's 8 bytes. -/
theorem inodeKey_ne_superblockKey (n : Nat) : inodeKey n ≠ superblockKey := by
  intro h
  have hlen := congrArg List.length h
  rw [inodeKey_length] at hlen
  revert hlen
  decide

theorem inodeKey_ne_inodeSeedKey (n : Nat) : inodeKey n ≠ inodeSeedKey := by
  intro h
  have hlen := congrArg List.length h
  rw [inodeKey_length] at hlen
  revert hlen
  decide

theorem inodeKey_inj {m n : Nat} (hm : m < 2 ^ 64) (hn : n < 2 ^ 64)
    (h : inodeKey m = inodeKey n) : m = n :=
  leBytes_inj hm hn h

/-- A number below 0x0101010101010101 has a zero byte. -/
theorem zero_mem_inodeKey {n : Nat} (hn : n < 0x0101010101010101) :
    (0 : UInt8) ∈ inodeKey n := by
  by_contra hzero
  -- eight bytes of at least one each spell at least 0x0101010101010101
  have hmin : ∀ (b : Bytes), (0 : UInt8) ∉ b →
      leNat (List.replicate b.length 1) ≤ leNat b := by
    intro b hb
    induction b with
    | nil => exact Nat.le_refl _
    | cons x b ih =>
        have hx : 1 ≤ x.toNat := by
          rcases Nat.eq_zero_or_pos x.toNat with h0 | h0
          · obtain rfl : x = 0 := UInt8.toNat_inj.mp h0
            exact absurd (List.mem_cons_self ..) hb
          · exact h0
        have hrest := ih fun hm => hb (List.mem_cons_of_mem _ hm)
        show leNat (1 :: List.replicate b.length 1) ≤ leNat (x :: b)
        rw [leNat, leNat]
        have hone : (1 : UInt8).toNat = 1 := rfl
        omega
  have hle := hmin (inodeKey n) hzero
  rw [inodeKey_length, inodeKey, leNat_leBytes_of_lt (by omega)] at hle
  have hones : leNat (List.replicate 8 1) = 0x0101010101010101 := by decide
  omega

/-- The first numbers' keys are no entry's key. -/
theorem fileKey_ne_inodeKey {n : Nat} (hn : n < 0x0101010101010101)
    (p : Int) (m : FileName) : fileKey p m ≠ inodeKey n := by
  intro h
  exact zero_notMem_fileKey p m (h ▸ zero_mem_inodeKey hn)

theorem superblockKey_ne_inodeSeedKey : superblockKey ≠ inodeSeedKey := by
  decide

-- ================================================================ extents

/-- An extent's key determines its index and its inode. -/
theorem vnExtentKey_inj {i j m n : Nat} (hi : i < 2 ^ 64) (hj : j < 2 ^ 64)
    (hm : m < 2 ^ 64) (hn : n < 2 ^ 64)
    (h : vnExtentKey i m = vnExtentKey j n) : i = j ∧ m = n := by
  obtain ⟨hidx, hino⟩ := List.append_inj h (by
    rw [leBytes_length, leBytes_length])
  exact ⟨leBytes_inj hi hj hidx, leBytes_inj hm hn hino⟩

/-- The metadata keys tell their formats and their parts apart. -/
theorem metadata_keys_unambiguous (p q : Int) (m n : FileName) :
    (fileKey p m = fileKey q n → p = q ∧ m = n)
      ∧ (dirPrefix p <+: fileKey q n ↔ p = q)
      ∧ (fileKey p m).drop (dirPrefix p).length = m.val
      ∧ fileKey p m ≠ superblockKey ∧ fileKey p m ≠ inodeSeedKey
      ∧ ∀ ino < 2 ^ 56, fileKey p m ≠ inodeKey ino := by
  refine ⟨fileKey_inj, dirPrefix_prefix_iff, ?_,
    fileKey_ne_superblockKey p m, fileKey_ne_inodeSeedKey p m, ?_⟩
  · rw [fileKey, List.drop_left]
  · intro ino hino
    exact fileKey_ne_inodeKey (by omega) p m

-- =================================================== the prefix extractor

namespace ExtPrefixExtrator

/-- The first law: what `Transform` returns starts the key. -/
def PrefixLaw (key : Bytes) : Prop :=
  ∃ t, transform key = .ok t ∧ t <+: key

/-- The second law: `Transform` keeps the order of keys. -/
def OrderLaw (key key' : Bytes) : Prop :=
  (compare key key').isLE = true →
    ∃ t t', transform key = .ok t ∧ transform key' = .ok t'
      ∧ (compare t t').isLE = true

/-- The third law: what `Transform` returns is in its domain, and its own
prefix. -/
def FixedLaw (key : Bytes) : Prop :=
  ∃ t, transform key = .ok t ∧ inDomain t = true ∧ transform t = .ok t

/-- Of an extent's key the extractor takes the inode number, which stands
last. -/
theorem transform_vnExtentKey (index ino : Nat) :
    transform (vnExtentKey index ino) = .ok (leBytes 8 ino) := by
  have hidx := leBytes_length 8 index
  have hino := leBytes_length 8 ino
  rw [transform, vnExtentKey, if_pos (by rw [List.length_append]; omega),
    List.drop_left' hidx, List.take_of_length_le (by omega)]

/-- The last half of the key is a prefix of it only if both halves agree. -/
theorem prefixLaw_iff (i m : UInt64) :
    PrefixLaw (vnExtentKey i.toNat m.toNat) ↔ i = m := by
  rw [PrefixLaw, transform_vnExtentKey]
  constructor
  · rintro ⟨t, ht, rest, hrest⟩
    cases ht
    obtain ⟨hsame, -⟩ := List.append_inj hrest
      (by rw [leBytes_length, leBytes_length])
    exact (UInt64.toNat_inj.mp
      (leBytes_inj m.toNat_lt i.toNat_lt hsame)).symm
  · rintro rfl
    exact ⟨_, rfl, List.prefix_append _ _⟩

/-- Keys are ordered by their index first, and by the inode only after it. -/
theorem orderLaw_iff (i m j n : UInt64) :
    OrderLaw (vnExtentKey i.toNat m.toNat) (vnExtentKey j.toNat n.toNat)
      ↔ ¬ (compare (leBytes 8 i.toNat) (leBytes 8 j.toNat) = .lt
          ∧ compare (leBytes 8 m.toNat) (leBytes 8 n.toNat) = .gt) := by
  have hkeys : compare (vnExtentKey i.toNat m.toNat)
        (vnExtentKey j.toNat n.toNat)
      = (compare (leBytes 8 i.toNat) (leBytes 8 j.toNat)).then
          (compare (leBytes 8 m.toNat) (leBytes 8 n.toNat)) :=
    PrefixScan.compare_append (by rw [leBytes_length, leBytes_length]) _ _
  rw [OrderLaw, hkeys, transform_vnExtentKey, transform_vnExtentKey]
  constructor
  · rintro h ⟨hlt, hgt⟩
    obtain ⟨t, t', ht, ht', hle⟩ := h (by rw [hlt]; rfl)
    cases ht
    cases ht'
    rw [hgt] at hle
    cases hle
  · intro h hle
    refine ⟨_, _, rfl, rfl, ?_⟩
    cases hino : compare (leBytes 8 m.toNat) (leBytes 8 n.toNat) with
    | lt => rfl
    | eq => rfl
    | gt =>
        rw [hino] at hle h
        cases hidx : compare (leBytes 8 i.toNat) (leBytes 8 j.toNat) with
        | lt => exact absurd ⟨hidx, rfl⟩ h
        | eq => rw [hidx] at hle; cases hle
        | gt => rw [hidx] at hle; cases hle

/-- What the extractor returns is too short to be given to it again. -/
theorem not_fixedLaw (index ino : Nat) :
    ¬ FixedLaw (vnExtentKey index ino) := by
  rintro ⟨t, ht, -, hfix⟩
  rw [transform_vnExtentKey] at ht
  cases ht
  have hshort : ¬ 8 + 8 ≤ (leBytes 8 ino).length := by
    rw [leBytes_length]
    decide
  rw [transform, if_neg hshort] at hfix
  cases hfix

/-- The extractor returns the key's last half. So it obeys the first law
only where both halves agree; it breaks the second wherever a lower index
goes with a higher inode; and it never obeys the third, since 8 bytes
hold no key. -/
theorem extractor_laws_iff (i m j n : UInt64) :
    (PrefixLaw (vnExtentKey i.toNat m.toNat) ↔ i = m)
      ∧ (OrderLaw (vnExtentKey i.toNat m.toNat) (vnExtentKey j.toNat n.toNat)
        ↔ ¬ (compare (leBytes 8 i.toNat) (leBytes 8 j.toNat) = .lt
            ∧ compare (leBytes 8 m.toNat) (leBytes 8 n.toNat) = .gt))
      ∧ (FixedLaw (vnExtentKey i.toNat m.toNat) ↔ False) :=
  ⟨prefixLaw_iff i m, orderLaw_iff i m j n,
    iff_false_intro (not_fixedLaw _ _)⟩

/-- Extent 0 of inodes 1 and 2, and extent 1 of inode 1, break all
three. -/
theorem extractor_breaks_laws :
    ¬ PrefixLaw (vnExtentKey 0 1)
      ∧ ¬ OrderLaw (vnExtentKey 0 2) (vnExtentKey 1 1)
      ∧ ¬ FixedLaw (vnExtentKey 0 1) := by
  refine ⟨?_, ?_, not_fixedLaw 0 1⟩
  · exact (prefixLaw_iff 0 1).not.mpr (by decide)
  · exact (orderLaw_iff 0 2 1 1).not.mpr (not_not.mpr ⟨by decide, by decide⟩)

end ExtPrefixExtrator

end ViveNas
