import JsonShape.Proofs.Token.Permanent
import JsonShape.Proofs.Token.Placed

/-!
# Tokens tile their input

Between two calls, a lexer has taken the bytes up to its offset, and holds those behind it
(`Lexer.StandsIn`). A call that gives a token takes blanks and the token as it is written, and
nothing else (`Lexer.StandsIn.tile`). So the tokens of an input tile it, with blanks between them
and behind the last, and no other tokens do (`Lexer.tokens_tile`).
-/

namespace JsonShape

open Grammar

/-- The bytes from one offset on are blanks up to the place of the token, and the token as it is
written up to where it stops. -/
structure Tile (bytes : List UInt8) (t : Token) (last place stop : Nat) : Prop where
  offset : t.offset = place
  last_le : last ≤ place
  place_lt : place < stop
  stop_le : stop ≤ bytes.length
  blanks : Blanks (bytes.extract last place)
  token : TokenBytes (t.kind, t.text?) (bytes.extract place stop)
  /-- No number goes on behind the token. -/
  apart : t.kind = .number → Apart (bytes.drop stop)

/-- The tokens tile the bytes. The first tile starts with the first byte, every other where the one
before it stops, and nothing but blanks comes behind the last. -/
structure Tiles (bytes : List UInt8) (ts : List Token) (stops : Nat → Nat) : Prop where
  first : stops 0 = 0
  tile : ∀ k (hk : k < ts.length), ∃ place, Tile bytes ts[k] (stops k) place (stops (k + 1))
  blanks : Blanks (bytes.drop (stops ts.length))

section

variable {bytes : List UInt8} {t : Token} {last place stop : Nat}

/-- The bytes from an offset on are those of the tile and those behind it. -/
theorem Tile.drop_eq (h : Tile bytes t last place stop) :
    bytes.drop last =
      bytes.extract last place ++ (bytes.extract place stop ++ bytes.drop stop) := by
  have hsplit : ∀ {a b : Nat}, a ≤ b → bytes.drop a = bytes.extract a b ++ bytes.drop b := by
    intro a b hab
    rw [← List.take_append_drop (b - a) (bytes.drop a), List.drop_drop, Nat.add_sub_cancel' hab,
      List.extract_eq_take_drop]
  rw [hsplit h.last_le, hsplit (Nat.le_of_lt h.place_lt)]

/-- Blanks and a token that come next are a tile. -/
theorem tile_of_drop_eq {left token rest : List UInt8} (hlast : last ≤ bytes.length)
    (hb : bytes.drop last = left ++ (token ++ rest)) (hl : Blanks left)
    (ht : TokenBytes (t.kind, t.text?) token) (ha : t.kind = .number → Apart rest)
    (ho : t.offset = ↑(last + left.length)) :
    Tile bytes t last (last + left.length) (last + (left ++ token).length) ∧
      bytes.drop (last + (left ++ token).length) = rest := by
  have hleft : bytes.extract last (last + left.length) = left := by
    rw [List.extract_eq_take_drop, hb, Nat.add_sub_cancel_left, List.take_left]
  have htoken : bytes.drop (last + left.length) = token ++ rest := by
    rw [← List.drop_drop, hb, List.drop_left]
  have hrest : bytes.drop (last + (left ++ token).length) = rest := by
    rw [← List.drop_drop, hb, ← List.append_assoc, List.drop_left]
  have hcut : bytes.extract (last + left.length) (last + (left ++ token).length) = token := by
    rw [List.extract_eq_take_drop, htoken, List.length_append, Nat.add_sub_add_left,
      Nat.add_sub_cancel_left, List.take_left]
  have hlength : last + (left ++ token).length ≤ bytes.length := by
    have hcount := congrArg List.length hb
    simp only [List.length_drop, List.length_append] at hcount ⊢
    omega
  have hpos : 0 < token.length := by
    obtain ⟨b, token, rfl, -⟩ := ht.exists_cons
    exact Nat.succ_pos _
  have hlt : last + left.length < last + (left ++ token).length := by
    rw [List.length_append]
    omega
  refine ⟨⟨ho, Nat.le_add_right _ _, hlt, hlength, ?_, ?_, ?_⟩, hrest⟩
  · rwa [hleft]
  · rwa [hcut]
  · rwa [hrest]

/-- A token by itself tiles its bytes. -/
theorem tiles_singleton (ht : TokenBytes (t.kind, t.text?) bytes) (ho : t.offset = 0) :
    Tiles bytes [t] (fun k => k * bytes.length) := by
  have hb : bytes.drop 0 = [] ++ (bytes ++ []) := (List.append_nil bytes).symm
  obtain ⟨htile, hrest⟩ := tile_of_drop_eq (Nat.zero_le _) hb blanks_nil ht (fun _ => apart_nil) ho
  refine ⟨Nat.zero_mul _, fun k hk => ⟨0, ?_⟩, ?_⟩
  · obtain rfl := Nat.lt_one_iff.1 hk
    simpa using htile
  · simpa using blanks_nil

end

namespace Lexer

/-- The first calls give the tokens one by one, and the next one finds the end. -/
structure Gives (l : Lexer) (ts : List Token) : Prop where
  token : ∀ k (hk : k < ts.length), (l.call k).1 = .token ts[k]
  stop : (l.call ts.length).1 = .stop

/-- The lexer has taken the bytes up to its offset, and holds those behind it. -/
def StandsIn (l : Lexer) (bytes : List UInt8) : Prop :=
  l.offset ≤ bytes.length ∧ l.Holds (bytes.drop l.offset)

section

variable {l : Lexer} {bytes : List UInt8} {t : Token}

/-- A lexer at the start of a source has taken nothing. -/
theorem standsIn_ofSource {source : Source} (h : source.Delivers bytes) :
    (ofSource source).StandsIn bytes :=
  ⟨Nat.zero_le _, holds_ofSource h⟩

/-! ## One call -/

/-- A call that gives a token takes a tile of the bytes, and nothing else. -/
theorem StandsIn.tile (h : l.StandsIn bytes) (ht : l.next.1 = .token t) :
    l.next.2.StandsIn bytes ∧ ∃ place, Tile bytes t l.offset place l.next.2.offset := by
  obtain ⟨hlast, hholds⟩ := h
  obtain ⟨hpull, hoffset, hnext⟩ := next_of_holds hholds
  generalize hr : (Scan.blank.run l.offset (bytes.drop l.offset)).conclude = r
    at hpull hoffset hnext
  obtain ⟨p, offset', rest⟩ := r
  obtain rfl : p = .token t := hpull.symm.trans ht
  obtain ⟨left, token, hb, hl, htoken, ha, hbare, hcount⟩ := Scan.exists_of_conclude_token hr
  have hlex : t.lexeme = (t.kind, t.text?) :=
    Prod.ext (congrArg Token.kind hbare).symm (congrArg Token.text? hbare).symm
  rw [hlex] at htoken ha
  obtain ⟨htile, hrest⟩ := tile_of_drop_eq hlast hb hl htoken ha (congrArg Token.offset hbare)
  rw [← hcount] at htile hrest
  rw [StandsIn, hoffset, hrest]
  exact ⟨⟨htile.stop_le, hnext nofun⟩, _, htile⟩

/-- The end is found behind blanks, and all bytes are taken then. -/
theorem StandsIn.stop (h : l.StandsIn bytes) (ht : l.next.1 = .stop) :
    Blanks (bytes.drop l.offset) ∧ l.next.2.offset = bytes.length := by
  obtain ⟨hlast, hholds⟩ := h
  obtain ⟨hpull, hoffset, -⟩ := next_of_holds hholds
  have hblanks : Blanks (bytes.drop l.offset) := Scan.conclude_stop_iff.1 (hpull.symm.trans ht)
  have hcount : l.next.2.offset = l.offset + (bytes.drop l.offset).length := by
    rw [hoffset, Scan.run_blanks hblanks]
    rfl
  refine ⟨hblanks, ?_⟩
  rw [hcount, List.length_drop, Nat.add_sub_cancel' hlast]

/-- Where a tile comes next, the next call gives its token and takes no more than the tile. -/
theorem StandsIn.next_of_tile {place stop : Nat} (h : l.StandsIn bytes)
    (ht : Tile bytes t l.offset place stop) : l.next.1 = .token t ∧ l.next.2.offset = stop := by
  obtain ⟨hlast, hholds⟩ := h
  obtain ⟨offset', hr⟩ := Scan.conclude_token ht.blanks ht.token ht.apart l.offset
  rw [← ht.drop_eq] at hr
  obtain ⟨taken, htaken, hcount⟩ := Scan.exists_taken_of_conclude hr
  obtain ⟨hpull, hoffset, -⟩ := next_of_holds hholds
  rw [hr] at hpull hoffset
  have hle := ht.last_le
  have hlt := ht.place_lt
  have hstop := ht.stop_le
  have hplace : l.offset + (bytes.extract l.offset place).length = place := by
    rw [List.extract_eq_take_drop, List.length_take, List.length_drop]
    omega
  refine ⟨hpull.trans (congrArg Pull.token ?_), hoffset.trans (hcount.trans ?_)⟩
  · rw [hplace, ← ht.offset]
  · have hlength := congrArg List.length htaken
    rw [List.length_append, List.length_drop, List.length_drop] at hlength
    omega

/-- Where nothing but blanks comes, the next call finds the end. -/
theorem StandsIn.next_of_blanks (h : l.StandsIn bytes) (hb : Blanks (bytes.drop l.offset)) :
    l.next.1 = .stop :=
  (next_of_holds h.2).1.trans (Scan.conclude_stop_iff.2 hb)

/-! ## Successive calls -/

/-- As long as the calls give tokens, the lexer holds the bytes behind those that it has taken. -/
theorem StandsIn.after (h : l.StandsIn bytes) {n : Nat}
    (ht : ∀ k < n, ∃ t, (l.call k).1 = .token t) : (l.after n).StandsIn bytes := by
  induction n with
  | zero => exact h
  | succ n ih =>
    obtain ⟨t, hn⟩ := ht n (Nat.lt_succ_self n)
    exact ((ih fun k hk => ht k (Nat.lt_succ_of_lt hk)).tile hn).1

/-- A call that gives a token takes a tile, whatever comes behind it. -/
theorem StandsIn.tile_of_call (h : l.StandsIn bytes) {k : Nat} (ht : (l.call k).1 = .token t) :
    ∃ place, Tile bytes t (l.after k).offset place (l.call k).2 :=
  ((h.after fun _ hj => exists_token_of_lt ht hj).tile ht).2

/-- A lexer whose bytes are tiled comes from one tile to the next. -/
theorem StandsIn.after_of_tiles {ts : List Token} {stops : Nat → Nat} (h : l.StandsIn bytes)
    (ho : l.offset = 0) (ht : Tiles bytes ts stops) {n : Nat} (hn : n ≤ ts.length) :
    (l.after n).StandsIn bytes ∧ (l.after n).offset = stops n := by
  induction n with
  | zero => exact ⟨h, ho.trans ht.first.symm⟩
  | succ n ih =>
    obtain ⟨hstands, hoffset⟩ := ih (Nat.le_of_succ_le hn)
    obtain ⟨place, htile⟩ := ht.tile n hn
    rw [← hoffset] at htile
    obtain ⟨hpull, hstop⟩ := hstands.next_of_tile htile
    exact ⟨(hstands.tile hpull).1, hstop⟩

/-- Bytes that are tiled have the tokens of their tiles. -/
theorem StandsIn.gives_of_tiles {ts : List Token} {stops : Nat → Nat} (h : l.StandsIn bytes)
    (ho : l.offset = 0) (ht : Tiles bytes ts stops) : l.Gives ts := by
  refine ⟨fun k hk => ?_, ?_⟩
  · obtain ⟨hstands, hoffset⟩ := h.after_of_tiles ho ht (Nat.le_of_lt hk)
    obtain ⟨place, htile⟩ := ht.tile k hk
    exact (hstands.next_of_tile (hoffset ▸ htile)).1
  · obtain ⟨hstands, hoffset⟩ := h.after_of_tiles ho ht (Nat.le_refl _)
    exact hstands.next_of_blanks (hoffset ▸ ht.blanks)

end

/-- If a lexer gives tokens and then finds the end, these tile the bytes of its source, each from
the offset of the lexer in front of it to the one behind it, and all bytes are taken in the end.
Conversely, if any tokens tile the bytes, the lexer gives these, and has the offsets of the tiles on
the way. -/
theorem tokens_tile {source : Source} {bytes : List UInt8} (h : source.Delivers bytes)
    (ts : List Token) :
    ((ofSource source).Gives ts →
      Tiles bytes ts (fun k => ((ofSource source).after k).offset) ∧
        ((ofSource source).after (ts.length + 1)).offset = bytes.length) ∧
    ∀ stops, Tiles bytes ts stops →
      (ofSource source).Gives ts ∧
        ∀ k ≤ ts.length, ((ofSource source).after k).offset = stops k := by
  have hstart := standsIn_ofSource h
  refine ⟨fun hts => ?_, fun stops hts => ?_⟩
  · have hstands : ∀ n ≤ ts.length, ((ofSource source).after n).StandsIn bytes :=
      fun n hn => hstart.after fun k hk => ⟨_, hts.token k (Nat.lt_of_lt_of_le hk hn)⟩
    obtain ⟨hblanks, hend⟩ := (hstands _ (Nat.le_refl _)).stop hts.stop
    refine ⟨⟨rfl, fun k hk => ?_, hblanks⟩, hend⟩
    exact ((hstands k (Nat.le_of_lt hk)).tile (hts.token k hk)).2
  · exact ⟨hstart.gives_of_tiles rfl hts, fun k hk => (hstart.after_of_tiles rfl hts hk).2⟩

/-- A number is cut by the reads, and a string is longer than its text. -/
theorem tokens_tile_array :
    let source : Source := [.bytes [0x20, 0x5B, 0x2D],
      .bytes [0x31, 0x2E, 0x35, 0x20, 0x2C, 0x22, 0xC3, 0xA9, 0x5C, 0x6E, 0x22, 0x5D, 0x0A]]
    let bytes : List UInt8 := [0x20, 0x5B, 0x2D, 0x31, 0x2E, 0x35, 0x20, 0x2C, 0x22, 0xC3, 0xA9,
      0x5C, 0x6E, 0x22, 0x5D, 0x0A]
    let ts : List Token := [⟨.arrayStart, none, 1⟩, ⟨.number, some "-1.5", 2⟩, ⟨.comma, none, 7⟩,
      ⟨.string, some "é\n", 8⟩, ⟨.arrayEnd, none, 14⟩]
    let stops := fun k => ((ofSource source).after k).offset
    source.Delivers bytes ∧ (ofSource source).Gives ts ∧ Tiles bytes ts stops ∧
      (List.range 7).map stops = [0, 2, 6, 8, 14, 15, 16] := by
  intro source bytes ts stops
  have hsource : source.Delivers bytes := .chunk _ _ (.chunk _ _ .nil)
  have hgives : (ofSource source).Gives ts := ⟨by decide +kernel, by decide +kernel⟩
  exact ⟨hsource, hgives, ((tokens_tile hsource ts).1 hgives).1, by decide +kernel⟩

end Lexer

end JsonShape
