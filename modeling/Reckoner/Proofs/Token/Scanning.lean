import Reckoner.Proofs.Token.Cutting

/-!
Scanned tokens. Before the end token there are only tokens of the lexical grammar, and a text that
is cut into the faces of some tokens is scanned into these tokens, at places of its own.
-/
namespace Reckoner

namespace Token

def face (t : Token) : List Char × Reading :=
  (t.lexeme.toList, .token t.kind t.literal)

def unplaced (t : Token) : Token :=
  { t with line := 0, span := ⟨0, 0⟩ }

theorem face_eq_iff {t u : Token} :
    t.face = u.face ↔ t.lexeme = u.lexeme ∧ t.kind = u.kind ∧ t.literal = u.literal := by
  simp [face, String.toList_inj]

theorem unplaced_eq_iff {t u : Token} :
    t.unplaced = u.unplaced ↔ t.lexeme = u.lexeme ∧ t.kind = u.kind ∧ t.literal = u.literal := by
  simp only [unplaced, Token.mk.injEq, and_true]
  exact ⟨fun ⟨hk, hx, hl⟩ => ⟨hx, hk, hl⟩, fun ⟨hx, hk, hl⟩ => ⟨hk, hx, hl⟩⟩

def Lexical (t : Token) : Prop :=
  Lexes t.lexeme.toList t.kind t.literal

end Token

theorem Lexes.kind_ne_eof {text : List Char} {kind : Kind} {literal : Option Value}
    (h : Lexes text kind literal) : kind ≠ .eof := by
  rintro rfl
  cases h with
  | symbol hs => cases hs

def scanned (source : String) : List Token :=
  (pieces 0 source.toList).filterMap (Piece.token? (LineIndex.ofText source.toList))

theorem scan_tokens (source : String) :
    (scan source).tokens =
      scanned source ++ [endToken (LineIndex.ofText source.toList) source.toList.length] :=
  rfl

theorem mem_scan_tokens {source : String} {t : Token} :
    t ∈ (scan source).tokens ↔
      t ∈ scanned source ∨ t = endToken (.ofText source.toList) source.toList.length := by
  rw [scan_tokens, List.mem_append, List.mem_singleton]

theorem lexes_of_mem_pieces {offset : Nat} {text : List Char} {piece : Piece}
    (h : piece ∈ pieces offset text) {kind : Kind} {literal : Option Value}
    (hr : piece.reading = .token kind literal) : Lexes piece.text kind literal := by
  fun_induction pieces offset text with
  | case1 => cases h
  | case2 offset text start c rest hskip lexeme ih =>
    rcases List.mem_cons.1 h with rfl | h
    · exact Lexeme.lexes_first hr
    · exact ih h

theorem lexical_of_mem_scanned {source : String} {t : Token} (h : t ∈ scanned source) :
    t.Lexical := by
  obtain ⟨piece, hpiece, ht⟩ := List.mem_filterMap.1 h
  unfold Piece.token? at ht
  split at ht
  next kind literal hr =>
    cases ht
    unfold Token.Lexical
    rw [String.toList_ofList]
    exact lexes_of_mem_pieces hpiece hr
  next => cases ht

theorem Piece.token?_of_face {piece : Piece} {t : Token} (lines : LineIndex)
    (h : piece.face = t.face) :
    piece.diagnostic? lines = none ∧ ∃ u, piece.token? lines = some u ∧ u.face = t.face := by
  obtain ⟨start, text, reading⟩ := piece
  obtain ⟨rfl, rfl⟩ := Prod.mk.inj h
  refine ⟨rfl, _, rfl, ?_⟩
  simp [Token.face]

theorem filterMap_token?_of_face {found : List Piece} {tokens : List Token} (lines : LineIndex)
    (h : found.map Piece.face = tokens.map Token.face) :
    found.filterMap (Piece.diagnostic? lines) = [] ∧
      (found.filterMap (Piece.token? lines)).map Token.face = tokens.map Token.face := by
  induction found generalizing tokens with
  | nil => exact ⟨rfl, h⟩
  | cons piece found ih =>
    cases tokens with
    | nil => cases h
    | cons t tokens =>
      obtain ⟨hhead, htail⟩ := List.cons.inj h
      obtain ⟨hdiagnostic, u, htoken, hface⟩ := Piece.token?_of_face lines hhead
      obtain ⟨ihd, iht⟩ := ih htail
      rw [List.filterMap_cons_none hdiagnostic, List.filterMap_cons_some htoken]
      exact ⟨ihd, List.cons_eq_cons.2 ⟨hface, iht⟩⟩

theorem scan_of_cutsInto {source : String} {tokens : List Token}
    (h : CutsInto source.toList (tokens.map Token.face) []) :
    (scan source).diagnostics = [] ∧
      (scanned source).map Token.face = tokens.map Token.face :=
  filterMap_token?_of_face _ (h.map_face 0)

end Reckoner
