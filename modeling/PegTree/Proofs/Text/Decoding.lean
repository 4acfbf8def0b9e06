import PegTree.Proofs.Text.Encoding
import PegTree.Text.Utf8

/-!
# What is read of bytes

`Utf8.decode` undoes `Utf8.encode`: it comes to a text exactly if these are the bytes of that text
(`decode_eq_ok_iff`).  Otherwise it stops behind the longest beginning that is well-formed, and its fault says
how the bytes go wrong there (`reports_of_decode`).

One character is read at a time.  What becomes of a character that has been begun is said by the bounds of the
bytes that it still misses (`Pending.completes`), and these are the rest of the row to which the first byte
belongs (`begin?_eq_some`).
-/

namespace PegTree

namespace Utf8

/-! ## Reading -/

/-- The bounds of the bytes that a character still misses. -/
def Pending.ahead (p : Pending) : List (Nat × Nat) :=
  (p.low, p.high) :: List.replicate (p.missing - 1) continuation

/-- What the first byte of a character of several bytes leads to: the rest of the row that it belongs to. -/
structure Pending.StartedBy (p : Pending) (index : Nat) (b : UInt8) : Prop where
  start : p.start = index
  missing : 1 ≤ p.missing
  code : p.code = leadBits b
  row : ∃ bounds, bounds :: p.ahead ∈ rows ∧ Within bounds b

theorem Pending.StartedBy.ofRow {index missing low high code : Nat} {b : UInt8} (bounds : Nat × Nat)
    (hrow : bounds :: (low, high) :: List.replicate missing continuation ∈ rows) (hcode : code = leadBits b)
    (hlow : bounds.1 ≤ b.toNat) (hhigh : b.toNat ≤ bounds.2) :
    Pending.StartedBy ⟨index, missing + 1, low, high, code⟩ index b :=
  ⟨rfl, Nat.succ_pos missing, hcode, bounds, hrow, hlow, hhigh⟩

theorem begin?_eq_some {index : Nat} {b : UInt8} {p : Pending} (h : begin? index b.toNat = some p) :
    p.StartedBy index b := by
  unfold begin? at h
  split at h
  · cases h
  split at h
  · next hlow hhigh =>
    obtain rfl := Option.some.inj h
    have hcode := leadBits_two (b := b) (by omega) hhigh
    exact .ofRow (0xC2, 0xDF) (by decide) hcode.symm (by omega) (by omega)
  split at h
  · next hb =>
    obtain rfl := Option.some.inj h
    have hcode := leadBits_three (b := b) (by omega) (by omega)
    exact .ofRow (0xE0, 0xE0) (by decide) (by omega) (by omega) (by omega)
  split at h
  · next hb =>
    obtain rfl := Option.some.inj h
    have hcode := leadBits_three (b := b) (by omega) (by omega)
    exact .ofRow (0xED, 0xED) (by decide) (by omega) (by omega) (by omega)
  split at h
  · next hhigh =>
    obtain rfl := Option.some.inj h
    have hcode := leadBits_three (b := b) (by omega) hhigh
    -- these bytes are those of two rows
    rcases Nat.lt_or_ge b.toNat 0xED with hlt | hge
    · exact .ofRow (0xE1, 0xEC) (by decide) hcode.symm (by omega) (by omega)
    · exact .ofRow (0xEE, 0xEF) (by decide) hcode.symm (by omega) (by omega)
  split at h
  · next hb =>
    obtain rfl := Option.some.inj h
    have hcode := leadBits_four (b := b) (by omega)
    exact .ofRow (0xF0, 0xF0) (by decide) (by omega) (by omega) (by omega)
  split at h
  · next hhigh =>
    obtain rfl := Option.some.inj h
    have hcode := leadBits_four (b := b) (by omega)
    exact .ofRow (0xF1, 0xF3) (by decide) hcode.symm (by omega) (by omega)
  split at h
  · next hb =>
    obtain rfl := Option.some.inj h
    have hcode := leadBits_four (b := b) (by omega)
    exact .ofRow (0xF4, 0xF4) (by decide) (by omega) (by omega) (by omega)
  · cases h

theorem begin?_eq_none {index : Nat} {b : UInt8} (hb : 0x80 ≤ b.toNat) (h : begin? index b.toNat = none)
    {bounds : Nat × Nat} {left : List (Nat × Nat)} (hrow : bounds :: left ∈ rows) : ¬ Within bounds b := by
  have hout : b.toNat < 0xC2 ∨ 0xF4 < b.toNat := by
    unfold begin? at h
    grind
  have hbounds : ∀ row ∈ rows, (row.headD (0, 0)).2 < 0x80 ∨
      0xC2 ≤ (row.headD (0, 0)).1 ∧ (row.headD (0, 0)).2 ≤ 0xF4 := by
    decide
  have hwithin := hbounds _ hrow
  rw [List.headD_cons] at hwithin
  rintro ⟨hlow, hhigh⟩
  omega

/-- What becomes of a character that has been begun: its bytes are all there, or the bytes end before it does,
or a byte is out of bounds. -/
inductive Pending.Completes (p : Pending) (index : Nat) (bytes : List UInt8) : Except Fault (List Char) → Prop
  | whole {read more : List UInt8} : bytes = read ++ more → Fits p.ahead read →
      Completes p index bytes
        ((Char.ofNat (read.foldl joinBits p.code) :: ·) <$> decodeFrom (index + read.length) none more)
  | short {done left : List (Nat × Nat)} : p.ahead = done ++ left → left ≠ [] → Fits done bytes →
      Completes p index bytes (.error ⟨p.start, none⟩)
  | stray {done left : List (Nat × Nat)} {bounds : Nat × Nat} {read more : List UInt8} {b : UInt8} :
      p.ahead = done ++ bounds :: left → bytes = read ++ b :: more → Fits done read → ¬ Within bounds b →
      Completes p index bytes (.error ⟨p.start, some (index + read.length - p.start)⟩)

/-- The character with one byte more. -/
def Pending.next (p : Pending) (b : UInt8) : Pending :=
  ⟨p.start, p.missing - 1, 0x80, 0xBF, joinBits p.code b⟩

theorem Pending.ahead_eq (p : Pending) (b : UInt8) (h : 1 < p.missing) :
    p.ahead = (p.low, p.high) :: (p.next b).ahead := by
  obtain ⟨n, hn⟩ : ∃ n, p.missing - 1 = n + 1 := ⟨p.missing - 2, by omega⟩
  rw [ahead, ahead, next, hn, List.replicate_succ]
  rfl

/-- One byte within bounds leads on to what becomes of the character with that byte. -/
theorem Pending.Completes.behind {p : Pending} {index : Nat} {b : UInt8} {more : List UInt8}
    {result : Except Fault (List Char)} (hmissing : 1 < p.missing) (hb : Within (p.low, p.high) b)
    (h : (p.next b).Completes (index + 1) more result) : p.Completes index (b :: more) result := by
  have hahead := p.ahead_eq b hmissing
  cases h with
  | @whole read rest hbytes hfits =>
    have hindex : index + 1 + read.length = index + (b :: read).length := by
      rw [List.length_cons, Nat.add_assoc, Nat.add_comm 1]
    have hcode : (p.next b).code = joinBits p.code b := rfl
    have hbytes' : b :: more = (b :: read) ++ rest := congrArg (b :: ·) hbytes
    have hfits' : Fits p.ahead (b :: read) := by
      rw [hahead]
      exact .cons hb hfits
    rw [hindex, hcode, ← List.foldl_cons]
    exact .whole hbytes' hfits'
  | @short done left hrow hleft hfits =>
    have hrow' : p.ahead = ((p.low, p.high) :: done) ++ left := by
      rw [hahead, hrow, List.cons_append]
    exact .short hrow' hleft (.cons hb hfits)
  | @stray done left bounds read rest b' hrow hbytes hfits hout =>
    have hindex : index + 1 + read.length = index + (b :: read).length := by
      rw [List.length_cons, Nat.add_assoc, Nat.add_comm 1]
    have hrow' : p.ahead = ((p.low, p.high) :: done) ++ bounds :: left := by
      rw [hahead, hrow, List.cons_append]
    have hbytes' : b :: more = (b :: read) ++ b' :: rest := congrArg (b :: ·) hbytes
    rw [hindex]
    exact .stray hrow' hbytes' (.cons hb hfits) hout

/-- Reading on inside a character, by induction on the bytes. -/
theorem Pending.completes {p : Pending} (h : 1 ≤ p.missing) (index : Nat) (bytes : List UInt8) :
    p.Completes index bytes (decodeFrom index (some p) bytes) := by
  induction bytes generalizing p index with
  | nil => exact .short (List.nil_append _).symm (List.cons_ne_nil _ _) .nil
  | cons b more ih =>
    rw [decodeFrom]
    split
    · next hb =>
      split
      · next hlast =>
        have hfits : Fits p.ahead [b] := by
          rw [ahead, hlast]
          exact .cons hb .nil
        exact @Completes.whole p index (b :: more) [b] more rfl hfits
      · next hmissing =>
        have hnext : 1 ≤ (p.next b).missing := by
          show 1 ≤ p.missing - 1
          omega
        show p.Completes index (b :: more) (decodeFrom (index + 1) (some (p.next b)) more)
        exact (ih hnext (index + 1)).behind (by omega) hb
    · next hb => exact .stray (List.nil_append _).symm (List.nil_append _).symm .nil hb

/-- Where reading gives up: the bytes end inside a character, or the first of them or the first ones with the
next are those of no character. -/
inductive FailsAt (index : Nat) (bytes : List UInt8) : Fault → Prop
  | cutOff : BeginsCharacter bytes → FailsAt index bytes ⟨index, none⟩
  | stray {read more : List UInt8} {b : UInt8} : bytes = read ++ b :: more →
      read = [] ∨ BeginsCharacter read → (∀ rest, ¬ IsCharacter (read ++ b :: rest)) →
      FailsAt index bytes ⟨index, some (max 1 read.length)⟩

/-- What is read from a boundary on. -/
inductive Reads (index : Nat) (bytes : List UInt8) : Except Fault (List Char) → Prop
  | nothing : bytes = [] → Reads index bytes (.ok [])
  | character {first more : List UInt8} : bytes = first ++ more → IsCharacter first →
      Reads index bytes ((Char.ofNat (codePoint first) :: ·) <$> decodeFrom (index + first.length) none more)
  | failed {fault : Fault} : FailsAt index bytes fault → Reads index bytes (.error fault)

/-- What a character of several bytes comes to. -/
theorem Pending.Completes.reads {p : Pending} {index : Nat} {a : UInt8} {more : List UInt8}
    {result : Except Fault (List Char)} (hp : p.StartedBy index a) (h : p.Completes (index + 1) more result) :
    Reads index (a :: more) result := by
  obtain ⟨rfl, -, hcode, bounds, hrow, ha⟩ := hp
  cases h with
  | @whole read rest hbytes hfits =>
    have hindex : p.start + 1 + read.length = p.start + (a :: read).length := by
      rw [List.length_cons, Nat.add_assoc, Nat.add_comm 1]
    rw [hindex, hcode]
    have hbytes' : a :: more = (a :: read) ++ rest := congrArg (a :: ·) hbytes
    exact .character hbytes' ⟨_, hrow, .cons ha hfits⟩
  | @short done left hahead hleft hfits =>
    rw [hahead, ← List.cons_append] at hrow
    exact .failed (.cutOff (beginsCharacter_of_fits hrow hleft (.cons ha hfits) (List.cons_ne_nil _ _)))
  | @stray done left bounds' read rest b hahead hbytes hfits hout =>
    have hlength : p.start + 1 + read.length - p.start = max 1 (a :: read).length := by
      rw [List.length_cons]
      omega
    rw [hahead, ← List.cons_append] at hrow
    have hbytes' : a :: more = (a :: read) ++ b :: rest := congrArg (a :: ·) hbytes
    rw [hlength]
    refine .failed (.stray hbytes' (.inr ?_) ?_)
    · exact beginsCharacter_of_fits hrow (List.cons_ne_nil _ _) (.cons ha hfits) (List.cons_ne_nil _ _)
    · exact not_isCharacter_of_not_within hrow (.cons ha hfits) (List.cons_ne_nil _ _) hout

theorem reads_decodeFrom (index : Nat) (bytes : List UInt8) :
    Reads index bytes (decodeFrom index none bytes) := by
  cases bytes with
  | nil => exact .nothing rfl
  | cons a more =>
    rw [decodeFrom]
    split
    · next ha =>
      have hcode : leadBits a = a.toNat := if_pos ha
      rw [← hcode]
      have ha' : Within (0x00, 0x7F) a := ⟨Nat.zero_le _, Nat.le_of_lt_succ ha⟩
      exact .character (List.singleton_append).symm ⟨[(0x00, 0x7F)], by decide, .cons ha' .nil⟩
    · next ha =>
      split
      · next p hp =>
        have hstarted := begin?_eq_some hp
        exact (Pending.completes hstarted.missing (index + 1) more).reads hstarted
      · next hnone =>
        -- no character begins with this byte
        refine .failed (.stray (List.nil_append _).symm (.inl rfl) ?_)
        intro rest h
        obtain ⟨bounds, left, b, more, hrow, hbytes, hb, -⟩ := h.exists_cons
        obtain ⟨rfl, -⟩ := List.cons.inj hbytes
        exact begin?_eq_none (Nat.le_of_not_lt ha) hnone hrow hb

/-- Where reading gives up there is no character. -/
theorem FailsAt.not_isCharacter {index : Nat} {bytes first : List UInt8} {fault : Fault}
    (h : FailsAt index bytes fault) (hbegins : first <+: bytes) : ¬ IsCharacter first := by
  intro hfirst
  -- the first bytes of a character do not hold another one
  have hbegun : ∀ {read : List UInt8}, first <+: read → ¬ BeginsCharacter read := by
    rintro read hread ⟨-, more, hmore, hwhole⟩
    have heq := hfirst.eq_of_begins hwhole (hread.trans (List.prefix_append read more)) (List.prefix_refl _)
    have hle := hread.length_le
    rw [heq, List.length_append] at hle
    exact hmore (List.eq_nil_of_length_eq_zero (by omega))
  cases h with
  | cutOff hcut => exact hbegun hbegins hcut
  | @stray read more b hbytes hread hout =>
    rw [hbytes] at hbegins
    rcases List.prefix_or_prefix_of_prefix hbegins (List.prefix_append read (b :: more)) with hle | ⟨rest, hrest⟩
    · rcases hread with rfl | hread
      · exact hfirst.ne_nil (List.prefix_nil.mp hle)
      · exact hbegun hle hread
    · cases rest with
      | nil =>
        rw [List.append_nil] at hrest
        rcases hread with rfl | hread
        · exact hfirst.ne_nil hrest.symm
        · exact hbegun (hrest ▸ List.prefix_refl first) hread
      | cons b' rest =>
        rw [← hrest] at hbegins
        obtain ⟨rfl, -⟩ := List.cons_prefix_cons.mp ((List.prefix_append_right_inj read).mp hbegins)
        exact hout rest (hrest ▸ hfirst)

/-- A character that stands in front is read. -/
theorem decodeFrom_append (index : Nat) {first : List UInt8} (h : IsCharacter first) (more : List UInt8) :
    decodeFrom index none (first ++ more) =
      (Char.ofNat (codePoint first) :: ·) <$> decodeFrom (index + first.length) none more := by
  have hreads := reads_decodeFrom index (first ++ more)
  generalize decodeFrom index none (first ++ more) = result at hreads
  cases hreads with
  | nothing hbytes => exact absurd (List.append_eq_nil_iff.mp hbytes).1 h.ne_nil
  | @character first' more' hbytes h' =>
    obtain rfl := h.eq_of_begins h' (List.prefix_append first more) (hbytes ▸ List.prefix_append first' more')
    rw [List.append_cancel_left hbytes]
  | failed hfails => exact absurd h (hfails.not_isCharacter (List.prefix_append first more))

/-! ## Texts -/

/-- Reading comes to a text, whose bytes these are, or gives up behind one: by induction on the bytes. -/
theorem decodeFrom_cases (index : Nat) (bytes : List UInt8) :
    (∃ text, encode text = bytes ∧ decodeFrom index none bytes = .ok text) ∨
      ∃ text rest fault, bytes = encode text ++ rest ∧ FailsAt (index + (encode text).length) rest fault ∧
        decodeFrom index none bytes = .error fault := by
  induction hn : bytes.length using Nat.strongRecOn generalizing index bytes with
  | ind n ih =>
    have hreads := reads_decodeFrom index bytes
    generalize hresult : decodeFrom index none bytes = result at hreads
    cases hreads with
    | nothing hbytes => exact .inl ⟨[], hbytes.symm, rfl⟩
    | failed hfails => exact .inr ⟨[], bytes, _, rfl, hfails, rfl⟩
    | @character first more hbytes hfirst =>
      have hlt : more.length < n := by
        have hpos := List.length_pos_iff.mpr hfirst.ne_nil
        rw [← hn, hbytes, List.length_append]
        omega
      have hencode := encodeChar_codePoint hfirst
      rcases ih more.length hlt (index + first.length) more rfl with
        ⟨text, htext, hok⟩ | ⟨text, rest, fault, htext, hfails, herror⟩
      · refine .inl ⟨Char.ofNat (codePoint first) :: text, ?_, ?_⟩
        · rw [encode_cons, hencode, htext, hbytes]
        · rw [hok]
          rfl
      · refine .inr ⟨Char.ofNat (codePoint first) :: text, rest, fault, ?_, ?_, ?_⟩
        · rw [encode_cons, hencode, hbytes, htext, List.append_assoc]
        · rw [encode_cons, hencode, List.length_append, ← Nat.add_assoc]
          exact hfails
        · rw [herror]
          rfl

/-- Reading undoes writing. -/
theorem decodeFrom_encode (index : Nat) (text : List Char) : decodeFrom index none (encode text) = .ok text := by
  induction text generalizing index with
  | nil => rfl
  | cons c text ih =>
    rw [encode_cons, decodeFrom_append index (isCharacter_encodeChar c), ih, ofNat_codePoint]
    rfl

theorem decode_eq_ok_iff {bytes : List UInt8} {text : List Char} :
    decode bytes = .ok text ↔ encode text = bytes := by
  constructor
  · intro h
    rcases decodeFrom_cases 0 bytes with ⟨text', htext, hok⟩ | ⟨_, _, _, -, -, herror⟩
    · obtain rfl := Except.ok.inj (hok.symm.trans h)
      exact htext
    · cases herror.symm.trans h
  · rintro rfl
    exact decodeFrom_encode 0 text

/-! ## Faults -/

/-- The bytes of characters are the longest that stand in front of where reading gives up. -/
theorem WellFormed.length_le {good rest bytes : List UInt8} (hgood : WellFormed good)
    (hrest : ∀ first, first <+: rest → ¬ IsCharacter first) (h : WellFormed bytes) (hbegins : bytes <+: good ++ rest) :
    bytes.length ≤ good.length := by
  induction hgood generalizing bytes with
  | nil =>
    cases h with
    | nil => exact Nat.le_refl _
    | @character first more hfirst _ =>
      exact absurd hfirst (hrest first ((List.prefix_append first more).trans hbegins))
  | @character first' good hfirst' _ ih =>
    cases h with
    | nil => exact Nat.zero_le _
    | @character first more hfirst hmore =>
      rw [List.append_assoc] at hbegins
      obtain rfl := hfirst.eq_of_begins hfirst' ((List.prefix_append first more).trans hbegins)
        (List.prefix_append first' (good ++ rest))
      have hle := ih hmore ((List.prefix_append_right_inj first).mp hbegins)
      rw [List.length_append, List.length_append]
      omega

/-- What a fault says of bytes: up to its index they are characters, and no longer beginning of them is.  They
end inside a character, or the length is that of the longest beginning of a character that stands there, at
least one. -/
structure Fault.Reports (f : Fault) (bytes : List UInt8) : Prop where
  index_le : f.index ≤ bytes.length
  wellFormed : WellFormed (bytes.take f.index)
  longest : ∀ k ≤ bytes.length, WellFormed (bytes.take k) → k ≤ f.index
  incomplete_iff : f.length = none ↔ BeginsCharacter (bytes.drop f.index)
  length : ∀ n, f.length = some n → 1 ≤ n ∧ (n = 1 ∨ BeginsCharacter ((bytes.drop f.index).take n)) ∧
    ∀ k, BeginsCharacter ((bytes.drop f.index).take k) → k ≤ n

theorem FailsAt.reports {good rest : List UInt8} {fault : Fault} (hgood : WellFormed good)
    (h : FailsAt good.length rest fault) : fault.Reports (good ++ rest) := by
  have hindex : fault.index = good.length := by
    cases h <;> rfl
  refine ⟨?_, ?_, ?_, ?_, ?_⟩
  · rw [hindex, List.length_append]
    exact Nat.le_add_right _ _
  · rw [hindex, List.take_left]
    exact hgood
  · intro k hk hwell
    have hle := hgood.length_le (fun first => h.not_isCharacter) hwell (List.take_prefix k _)
    rwa [List.length_take, Nat.min_eq_left hk, ← hindex] at hle
  all_goals rw [hindex, List.drop_left]
  · cases h with
    | cutOff hbegins => exact iff_of_true rfl hbegins
    | @stray read more b hbytes _ hout =>
      refine iff_of_false (by rintro ⟨⟩) ?_
      rintro ⟨-, rest', -, hwhole⟩
      rw [hbytes, List.append_assoc] at hwhole
      exact hout _ hwhole
  · intro n hn
    cases h with
    | cutOff => cases hn
    | @stray read more b hbytes hread hout =>
      obtain rfl := Option.some.inj hn
      refine ⟨Nat.le_max_left _ _, ?_, ?_⟩
      · rcases hread with rfl | hread
        · exact .inl rfl
        · have hpos := List.length_pos_iff.mpr hread.1
          rw [Nat.max_eq_right hpos, hbytes, List.take_left]
          exact .inr hread
      · intro k hk
        refine Nat.le_of_not_lt fun hlt => ?_
        obtain ⟨j, hj⟩ : ∃ j, k = read.length + (j + 1) := ⟨k - read.length - 1, by omega⟩
        obtain ⟨-, rest', -, hwhole⟩ := hk
        rw [hbytes, hj, List.take_length_add_append, List.take_succ_cons, List.append_assoc] at hwhole
        exact hout _ hwhole

theorem reports_of_decode {bytes : List UInt8} {fault : Fault} (h : decode bytes = .error fault) :
    fault.Reports bytes := by
  rcases decodeFrom_cases 0 bytes with ⟨_, -, hok⟩ | ⟨text, rest, fault', rfl, hfails, herror⟩
  · cases hok.symm.trans h
  · obtain rfl := Except.error.inj (herror.symm.trans h)
    rw [Nat.zero_add] at hfails
    exact hfails.reports (wellFormed_iff.mpr ⟨text, rfl⟩)

end Utf8

end PegTree
