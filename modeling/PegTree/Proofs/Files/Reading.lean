import PegTree.Files.Source
import PegTree.Proofs.Text.Decoding

/-!
# Reading undoes encoding

A file is read as the text whose bytes it holds, behind one byte-order mark if there is one
(`readText_undoes_encoding`).  A file of other bytes is not read, and the fault says where they go wrong,
counted from behind the mark.

The mark is itself the bytes of a character, so a text that does not begin with this character is never taken
to begin with a mark.
-/

namespace PegTree

namespace Utf8

/-! ## The byte-order mark -/

/-- The byte-order mark. -/
def mark : List UInt8 :=
  [0xEF, 0xBB, 0xBF]

theorem stripMark_mark_append (bytes : List UInt8) : stripMark (mark ++ bytes) = bytes :=
  rfl

theorem stripMark_of_not_prefix {bytes : List UInt8} (h : ¬ mark <+: bytes) : stripMark bytes = bytes := by
  unfold stripMark
  split
  · next rest => exact absurd (List.prefix_append mark rest) h
  · rfl

/-- What is in front of the bytes that are read: a mark, or nothing if there is none. -/
theorem stripMark_cases (bytes : List UInt8) :
    bytes = mark ++ stripMark bytes ∨ ¬ mark <+: bytes ∧ stripMark bytes = bytes := by
  by_cases h : mark <+: bytes
  · obtain ⟨rest, rfl⟩ := h
    exact .inl rfl
  · exact .inr ⟨h, stripMark_of_not_prefix h⟩

theorem mark_eq : mark = String.utf8EncodeChar '\uFEFF' := by
  decide

/-- A mark in front of a text is its first character. -/
theorem not_mark_prefix_encode {text : List Char} (h : text.head? ≠ some '\uFEFF') : ¬ mark <+: encode text := by
  intro hmark
  cases text with
  | nil => exact absurd (List.prefix_nil.mp hmark) (by decide)
  | cons c text =>
    rw [encode_cons, mark_eq] at hmark
    have heq := (isCharacter_encodeChar '\uFEFF').eq_of_begins (isCharacter_encodeChar c) hmark
      (List.prefix_append _ _)
    rw [List.head?_cons, ← encodeChar_injective heq] at h
    exact h rfl

end Utf8

namespace FileView

open Utf8

variable {view : FileView} {path : String} {bytes : List UInt8}

theorem readText_eq (h : view path = some (.file bytes)) :
    view.readText path = ((decode (stripMark bytes)).map String.ofList).mapError (.badEncoding path) := by
  rw [readText, h]
  dsimp only
  cases decode (stripMark bytes) <;> rfl

theorem readText_eq_ok_iff (h : view path = some (.file bytes)) (text : String) :
    view.readText path = .ok text ↔ encode text.toList = stripMark bytes := by
  rw [readText_eq h, ← decode_eq_ok_iff]
  cases decode (stripMark bytes) with
  | error fault => simp [Except.map, Except.mapError]
  | ok read =>
    simp only [Except.map, Except.mapError, Except.ok.injEq]
    constructor
    · rintro rfl
      exact String.toList_ofList.symm
    · rintro rfl
      exact String.ofList_toList

theorem readText_eq_error (h : view path = some (.file bytes)) (hbytes : ¬ WellFormed (stripMark bytes)) :
    ∃ fault, view.readText path = .error (.badEncoding path fault) ∧ fault.Reports (stripMark bytes) := by
  rw [readText_eq h]
  cases hdecode : decode (stripMark bytes) with
  | ok text => exact absurd (wellFormed_iff.mpr ⟨text, decode_eq_ok_iff.mp hdecode⟩) hbytes
  | error fault => exact ⟨fault, rfl, reports_of_decode hdecode⟩

end FileView

/-- A file is read as a text exactly if its bytes, without one byte-order mark in front, are well-formed, and
then they are the bytes of that text.  So a text that does not begin with the character of the mark is read
from its bytes and from its bytes behind a mark.  Other bytes are refused, and the fault reports the first
place where they are not those of a character. -/
theorem readText_undoes_encoding {view : FileView} {path : String} {bytes : List UInt8}
    (hfile : view path = some (.file bytes)) :
    ∃ rest, (bytes = Utf8.mark ++ rest ∨ ¬ Utf8.mark <+: bytes ∧ rest = bytes) ∧
      ((∃ text, view.readText path = .ok text) ↔ Utf8.WellFormed rest) ∧
      (∀ text, view.readText path = .ok text ↔ Utf8.encode text.toList = rest) ∧
      (¬ Utf8.WellFormed rest → ∃ fault, view.readText path = .error (.badEncoding path fault) ∧
        fault.Reports rest) ∧
      ∀ text : String, text.toList.head? ≠ some '\uFEFF' →
        bytes = Utf8.encode text.toList ∨ bytes = Utf8.mark ++ Utf8.encode text.toList →
        view.readText path = .ok text := by
  have hok := FileView.readText_eq_ok_iff hfile
  refine ⟨Utf8.stripMark bytes, Utf8.stripMark_cases bytes, ?_, hok, FileView.readText_eq_error hfile, ?_⟩
  · rw [Utf8.wellFormed_iff]
    constructor
    · rintro ⟨text, htext⟩
      exact ⟨text.toList, (hok text).mp htext⟩
    · rintro ⟨text, htext⟩
      refine ⟨String.ofList text, (hok _).mpr ?_⟩
      rw [String.toList_ofList, htext]
  · intro text hhead hbytes
    rw [hok]
    rcases hbytes with rfl | rfl
    · rw [Utf8.stripMark_of_not_prefix (Utf8.not_mark_prefix_encode hhead)]
    · rw [Utf8.stripMark_mark_append]

/-- Behind a mark a character of three bytes, then two bytes of a surrogate: the fault stands behind the
character, and only the first byte of the surrogate begins one. -/
theorem readText_undoes_encoding_surrogate :
    FileView.ofLoaded [("f", .file [0xEF, 0xBB, 0xBF, 0xE4, 0xB8, 0xAD, 0xED, 0xA0])] "f" =
        some (.file [0xEF, 0xBB, 0xBF, 0xE4, 0xB8, 0xAD, 0xED, 0xA0]) ∧
      ∃ fault, FileView.readText (.ofLoaded
          [("f", .file [0xEF, 0xBB, 0xBF, 0xE4, 0xB8, 0xAD, 0xED, 0xA0])]) "f" =
            .error (.badEncoding "f" fault) ∧
        fault.Reports [0xE4, 0xB8, 0xAD, 0xED, 0xA0] ∧ fault = ⟨3, some 1⟩ := by
  have hfile : FileView.ofLoaded [("f", .file [0xEF, 0xBB, 0xBF, 0xE4, 0xB8, 0xAD, 0xED, 0xA0])] "f" =
      some (.file [0xEF, 0xBB, 0xBF, 0xE4, 0xB8, 0xAD, 0xED, 0xA0]) := rfl
  obtain ⟨rest, hrest, htext, -, hfault, -⟩ := readText_undoes_encoding hfile
  have hbytes : rest = [0xE4, 0xB8, 0xAD, 0xED, 0xA0] := by
    rcases hrest with hmark | ⟨hmark, -⟩
    · have hmark' : Utf8.mark ++ [0xE4, 0xB8, 0xAD, 0xED, 0xA0] = Utf8.mark ++ rest := hmark
      exact (List.append_cancel_left hmark').symm
    · exact absurd (List.prefix_append Utf8.mark [0xE4, 0xB8, 0xAD, 0xED, 0xA0]) hmark
  have hread : FileView.readText (.ofLoaded
      [("f", .file [0xEF, 0xBB, 0xBF, 0xE4, 0xB8, 0xAD, 0xED, 0xA0])]) "f" =
        .error (.badEncoding "f" ⟨3, some 1⟩) := rfl
  have hill : ¬ Utf8.WellFormed rest := by
    intro hwell
    obtain ⟨text, hok⟩ := htext.mpr hwell
    cases hok.symm.trans hread
  obtain ⟨fault, herror, hreports⟩ := hfault hill
  obtain rfl : fault = ⟨3, some 1⟩ := by
    cases hread.symm.trans herror
    rfl
  exact ⟨hfile, _, herror, hbytes ▸ hreports, rfl⟩

end PegTree
