import Mathlib
import Ember.Proofs.Lexemes

/-!
# Lines and columns

The table of a text has the offset 0 and the offsets after its newline bytes, in order. Looking an
offset up gives the last entry that is not greater. So lines count newline bytes, columns count
bytes after the last of them, and between neighbouring entries lies what splitting the text at
newlines gives.
-/

set_option autoImplicit false

namespace Ember

/-! ## Bytes -/

def Chunk.bytes (c : Chunk) : List UInt8 := c.text.toUTF8.data.toList

theorem Chunk.bytes_eq (c : Chunk) : c.bytes = utf8 c.chars := by
  rw [bytes, String.toUTF8, ← String.utf8Encode_toList]
  simp [List.utf8Encode, utf8, chars]

theorem length_utf8 (cs : List Char) : (utf8 cs).length = byteLength cs := by
  induction cs with
  | nil => rfl
  | cons c cs ih =>
    rw [utf8, List.flatMap_cons, List.length_append, String.length_utf8EncodeChar, byteLength_cons]
    exact congrArg _ ih

/-- A character is one byte that stands for it, or has only bytes beyond those. -/
theorem encode_cases (c : Char) :
    (∃ b, String.utf8EncodeChar c = [b] ∧ b < 0x80 ∧ Char.ofUInt8 b = c) ∨
      (0x80 ≤ c.toNat ∧ ∀ b ∈ String.utf8EncodeChar c, 0x80 ≤ b) := by
  fun_cases String.utf8EncodeChar c with
  | case1 v low =>
    refine .inl ⟨_, rfl, ?_, Char.ext (UInt32.toNat_inj.mp ?_)⟩
    · simp only [UInt8.lt_iff_toNat_lt, UInt8.toNat_ofNat']
      grind
    · simp [Char.ofUInt8, v] at *
      omega
  | case2 v high | case3 v high | case4 v high =>
    refine .inr ⟨Nat.lt_of_not_le high, ?_⟩
    simp only [List.forall_mem_cons, UInt8.le_iff_toNat_le, UInt8.toNat_ofNat']
    grind

/-- What is one byte is among the bytes of no other character. -/
theorem ne_of_mem_encode {c d : Char} (ascii : d.toNat < 0x80) (other : c ≠ d) {b : UInt8}
    (member : b ∈ String.utf8EncodeChar c) : b ≠ d.toUInt8 := by
  have value : d.toUInt8.toNat = d.toNat := by
    change d.toNat % 256 = d.toNat
    omega
  rintro rfl
  rcases encode_cases c with ⟨a, one, _, rfl⟩ | ⟨_, beyond⟩
  · obtain rfl : d.toUInt8 = a := by simpa [one] using member
    exact other (Char.ext (UInt32.toNat_inj.mp value))
  · have high : 0x80 ≤ d.toUInt8.toNat := UInt8.le_iff_toNat_le.mp (beyond _ member)
    omega

/-! ## The table -/

/-- The offsets after newline bytes, where the first byte has the offset `pos`. -/
def byteEnds : Nat → List UInt8 → List Nat
  | _, [] => []
  | pos, b :: bs => if b = 10 then (pos + 1) :: byteEnds (pos + 1) bs else byteEnds (pos + 1) bs

theorem byteEnds_append (pos : Nat) (as bs : List UInt8) :
    byteEnds pos (as ++ bs) = byteEnds pos as ++ byteEnds (pos + as.length) bs := by
  induction as generalizing pos with
  | nil => rfl
  | cons a as ih =>
    have place : pos + (as.length + 1) = pos + 1 + as.length := by omega
    simp only [List.cons_append, byteEnds, ih, List.length_cons, place]
    split <;> rfl

theorem byteEnds_eq_nil {pos : Nat} {bs : List UInt8} (none : ∀ b ∈ bs, b ≠ 10) :
    byteEnds pos bs = [] := by
  induction bs generalizing pos with
  | nil => rfl
  | cons b bs ih =>
    rw [byteEnds, if_neg (none b (by simp)), ih fun b member => none b (by simp [member])]

theorem newlineEnds_eq_byteEnds (pos : Nat) (cs : List Char) :
    newlineEnds pos cs = byteEnds pos (utf8 cs) := by
  induction cs generalizing pos with
  | nil => rfl
  | cons c cs ih =>
    have bytes : utf8 (c :: cs) = String.utf8EncodeChar c ++ utf8 cs := List.flatMap_cons
    rw [newlineEnds, bytes, byteEnds_append, String.length_utf8EncodeChar, ih]
    split
    · subst c
      rfl
    · rename_i other
      have none (b : UInt8) (member : b ∈ String.utf8EncodeChar c) : b ≠ 10 :=
        ne_of_mem_encode (d := '\n') (by decide) other member
      rw [byteEnds_eq_nil none, List.nil_append]

theorem length_byteEnds (pos : Nat) (bs : List UInt8) : (byteEnds pos bs).length = bs.count 10 := by
  induction bs generalizing pos with
  | nil => rfl
  | cons b bs ih =>
    rw [byteEnds, List.count_cons, ← ih (pos + 1)]
    split <;> simp_all

theorem mem_byteEnds {pos e : Nat} {bs : List UInt8} :
    e ∈ byteEnds pos bs ↔ ∃ i, bs[i]? = some 10 ∧ e = pos + i + 1 := by
  induction bs generalizing pos with
  | nil => simp [byteEnds]
  | cons b bs ih =>
    have split_ : (∃ i, (b :: bs)[i]? = some 10 ∧ e = pos + i + 1) ↔
        (b = 10 ∧ e = pos + 1) ∨ ∃ i, bs[i]? = some 10 ∧ e = pos + 1 + i + 1 := by
      constructor
      · rintro ⟨_ | i, found, rfl⟩
        · exact .inl ⟨by simpa using found, rfl⟩
        · exact .inr ⟨i, by simpa using found, by omega⟩
      · rintro (⟨rfl, rfl⟩ | ⟨i, found, rfl⟩)
        · exact ⟨0, rfl, rfl⟩
        · exact ⟨i + 1, by simpa using found, by omega⟩
    rw [byteEnds, split_, ← ih]
    split <;> simp_all

theorem byteEnds_increasing (pos : Nat) (bs : List UInt8) :
    (pos :: byteEnds pos bs).Pairwise (· < ·) := by
  induction bs generalizing pos with
  | nil => simp [byteEnds]
  | cons b bs ih =>
    obtain ⟨first, rest⟩ := List.pairwise_cons.mp (ih (pos + 1))
    have later : ∀ e ∈ byteEnds (pos + 1) bs, pos < e := fun e member => by
      have := first e member
      omega
    rw [byteEnds]
    split
    · refine List.pairwise_cons.mpr ⟨List.forall_mem_cons.mpr ⟨by omega, later⟩, ih (pos + 1)⟩
    · exact List.pairwise_cons.mpr ⟨later, rest⟩

/-! ## Lookup -/

namespace Chunk

/-- Before the part that is searched all is less, and after it all is greater. So a number that is
not found belongs between what is less and what is greater. -/
theorem search_spec (table : Array Nat) (x : Nat) {lo hi : Nat} (ordered : lo ≤ hi)
    (inside : hi ≤ table.size)
    (increasing : ∀ i j, i < j → j < table.size → table.getD i 0 < table.getD j 0)
    (below : ∀ i < lo, table.getD i 0 < x)
    (above : ∀ i, hi ≤ i → i < table.size → x < table.getD i 0) :
    (∀ m, search table x lo hi = .ok m → m < table.size ∧ table.getD m 0 = x) ∧
    ∀ n, search table x lo hi = .error n → n ≤ table.size ∧ (∀ i < n, table.getD i 0 < x) ∧
      ∀ i, n ≤ i → i < table.size → x < table.getD i 0 := by
  fun_induction search table x lo hi with
  | case1 lo hi some_ mid found equal =>
    refine ⟨?_, fun n missed => by cases missed⟩
    rintro _ ⟨⟩
    exact ⟨by omega, equal⟩
  | case2 lo hi some_ mid found other less ih =>
    refine ih (by omega) inside (fun i before => ?_) above
    rcases Nat.lt_succ_iff_lt_or_eq.mp before with early | rfl
    · exact (increasing i mid early (by omega)).trans less
    · exact less
  | case3 lo hi some_ mid found other least ih =>
    have greater : x < table.getD mid 0 := by
      change x < found
      omega
    refine ih (by omega) (by omega) below fun i after bound => ?_
    rcases Nat.eq_or_lt_of_le after with rfl | late
    · exact greater
    · exact greater.trans (increasing mid i late bound)
  | case4 lo hi none =>
    refine ⟨fun m found => (by cases found), ?_⟩
    rintro _ ⟨⟩
    exact ⟨by omega, below, fun i after => above i (by omega)⟩

def starts (c : Chunk) : List Nat := 0 :: byteEnds 0 (utf8 c.chars)

theorem lineStarts_eq (c : Chunk) : c.lineStarts = c.starts.toArray := by
  rw [lineStarts, newlineEnds_eq_byteEnds, starts]

theorem starts_increasing (c : Chunk) {i j : Nat} (order : i < j) (inside : j < c.starts.length) :
    c.starts.getD i 0 < c.starts.getD j 0 := by
  rw [List.getD_eq_getElem _ _ inside, List.getD_eq_getElem _ _ (order.trans inside)]
  exact List.pairwise_iff_getElem.mp (byteEnds_increasing 0 _) i j (order.trans inside) inside order

/-- An offset lies on the last line that does not start after it. -/
theorem lineCol_eq (c : Chunk) (offset : Nat) : ∃ k < c.starts.length,
    c.starts.getD k 0 ≤ min offset (byteLength c.chars) ∧
    (∀ i, k < i → i < c.starts.length → min offset (byteLength c.chars) < c.starts.getD i 0) ∧
    c.lineCol offset = ⟨k + 1, min offset (byteLength c.chars) - c.starts.getD k 0 + 1⟩ := by
  have entry (i : Nat) : c.lineStarts.getD i 0 = c.starts.getD i 0 := by
    rw [lineStarts_eq, Array.getD_eq_getD_getElem?, List.getElem?_toArray,
      List.getD_eq_getElem?_getD]
  have size : c.lineStarts.size = c.starts.length := by rw [lineStarts_eq, List.size_toArray]
  have start : c.starts.getD 0 0 = 0 := rfl
  have some_ : 0 < c.starts.length := Nat.zero_lt_succ _
  unfold lineCol
  dsimp only
  generalize min offset (byteLength c.chars) = place
  obtain ⟨hit, miss⟩ := search_spec c.lineStarts place (Nat.zero_le _) le_rfl
    (fun i j order bound => by
      rw [entry, entry]
      exact c.starts_increasing order (size ▸ bound))
    (fun i before => absurd before (Nat.not_lt_zero i)) fun i after bound => absurd bound (by omega)
  simp only [entry, size] at hit miss ⊢
  cases found : search c.lineStarts place 0 c.starts.length with
  | ok m =>
    obtain ⟨inside, here⟩ := hit m found
    exact ⟨m, inside, here.le, fun i after bound => here ▸ c.starts_increasing after bound, rfl⟩
  | error n =>
    obtain ⟨inside, less, greater⟩ := miss n found
    -- The first line starts at 0, so it does not start after the offset.
    have late : n ≠ 0 := by
      rintro rfl
      have := greater 0 le_rfl some_
      omega
    exact ⟨n - 1, by omega, (less (n - 1) (by omega)).le, fun i after => greater i (by omega), rfl⟩

end Chunk

/-- The offset just after the last newline byte before `p`, or 0 if there is none. -/
structure LineStart (bs : List UInt8) (p start : Nat) : Prop where
  before : start ≤ p
  follows : start = 0 ∨ ∃ i, bs[i]? = some 10 ∧ start = i + 1
  last : ∀ i, start ≤ i → i < p → bs[i]? ≠ some 10

namespace Chunk

variable {c : Chunk} {k p : Nat}

theorem lineStart_getD (inside : k < c.starts.length) (before : c.starts.getD k 0 ≤ p)
    (after : ∀ i, k < i → i < c.starts.length → p < c.starts.getD i 0) :
    LineStart (utf8 c.chars) p (c.starts.getD k 0) where
  before := before
  follows := by
    rw [List.getD_eq_getElem _ _ inside]
    rcases List.mem_cons.mp (List.getElem_mem inside) with zero | later
    · exact .inl zero
    · obtain ⟨i, found, place⟩ := mem_byteEnds.mp later
      exact .inr ⟨i, found, by omega⟩
  last := by
    intro i from_ until_ found
    -- The next entry after such a newline would lie between this one and the offset.
    have member : i + 1 ∈ c.starts :=
      List.mem_cons_of_mem _ (mem_byteEnds.mpr ⟨i, found, by omega⟩)
    obtain ⟨j, bound, entry⟩ := List.getElem_of_mem member
    have entry : c.starts.getD j 0 = i + 1 := by rw [List.getD_eq_getElem _ _ bound, entry]
    rcases Nat.lt_or_ge k j with later | earlier
    · have := after j later bound
      omega
    · rcases Nat.eq_or_lt_of_le earlier with rfl | strictly
      · omega
      · have := c.starts_increasing strictly inside
        omega

theorem count_newlines (inside : k < c.starts.length) (before : c.starts.getD k 0 ≤ p)
    (after : ∀ i, k < i → i < c.starts.length → p < c.starts.getD i 0)
    (short : p ≤ (utf8 c.chars).length) : ((utf8 c.chars).take p).count 10 = k := by
  have parts : c.starts = (0 :: byteEnds 0 ((utf8 c.chars).take p)) ++
      byteEnds p ((utf8 c.chars).drop p) := by
    have whole := byteEnds_append 0 ((utf8 c.chars).take p) ((utf8 c.chars).drop p)
    rw [List.take_append_drop, List.length_take_of_le short, Nat.zero_add] at whole
    rw [starts, whole, List.cons_append]
  rw [← length_byteEnds 0]
  generalize front : byteEnds 0 ((utf8 c.chars).take p) = first at parts
  rcases Nat.lt_trichotomy first.length k with late | equal | early
  · have entry : c.starts[k] ∈ byteEnds p ((utf8 c.chars).drop p) := by
      simp only [parts]
      rw [List.getElem_append_right (by simpa using late)]
      exact List.getElem_mem _
    obtain ⟨i, _, place⟩ := mem_byteEnds.mp entry
    rw [List.getD_eq_getElem _ _ inside] at before
    omega
  · exact equal
  · have bound : k + 1 < c.starts.length := by
      rw [parts, List.length_append, List.length_cons]
      omega
    have entry : c.starts[k + 1] ∈ byteEnds 0 ((utf8 c.chars).take p) := by
      simp only [parts]
      rw [List.getElem_append_left (by simpa using early), List.getElem_cons_succ, front]
      exact List.getElem_mem _
    obtain ⟨i, found, place⟩ := mem_byteEnds.mp entry
    have := after (k + 1) (by omega) bound
    rw [List.getD_eq_getElem _ _ bound] at this
    have short : i < ((utf8 c.chars).take p).length := (List.getElem?_eq_some_iff.mp found).1
    rw [List.length_take] at short
    omega

end Chunk

/-! ## Texts of lines -/

theorem splitOn_newline_cons (cs : List Char) :
    ('\n' :: cs).splitOn '\n' = [] :: cs.splitOn '\n' :=
  List.splitOnP_cons_eq_if_modifyHead ..

theorem splitOn_cons {c : Char} (other : c ≠ '\n') (cs : List Char) :
    (c :: cs).splitOn '\n' = (cs.splitOn '\n').modifyHead (c :: ·) :=
  (List.splitOnP_cons_eq_if_modifyHead ..).trans (if_neg (by simpa using other))

/-- A piece between newlines stands in the text between two entries of the table. -/
theorem splitOn_newlineEnds (pos : Nat) {cs piece : List Char} {n : Nat}
    (listed : (cs.splitOn '\n')[n]? = some piece) : ∃ before after, cs = before ++ piece ++ after ∧
      '\n' ∉ piece ∧ (pos :: newlineEnds pos cs)[n]? = some (pos + byteLength before) ∧
      (after = [] ∧ (newlineEnds pos cs)[n]? = none ∨ ∃ rest, after = '\n' :: rest ∧
        (newlineEnds pos cs)[n]? = some (pos + byteLength (before ++ piece) + 1)) := by
  induction cs generalizing pos n piece with
  | nil =>
    cases n with
    | zero =>
      obtain rfl : [] = piece := by simpa using listed
      exact ⟨[], [], rfl, by simp, rfl, .inl ⟨rfl, rfl⟩⟩
    | succ n => simp at listed
  | cons c cs ih =>
    have move (n : Nat) : pos + (c.utf8Size + n) = pos + c.utf8Size + n := by omega
    by_cases newline : c = '\n'
    · have cut : (c :: cs).splitOn '\n' = [] :: cs.splitOn '\n' := by
        rw [newline, splitOn_newline_cons]
      have ends : newlineEnds pos (c :: cs) =
          (pos + c.utf8Size) :: newlineEnds (pos + c.utf8Size) cs := by
        rw [newlineEnds, if_pos newline]
      rw [cut] at listed
      cases n with
      | zero =>
        obtain rfl : [] = piece := by simpa using listed
        subst c
        exact ⟨[], '\n' :: cs, rfl, by simp, rfl, .inr ⟨cs, rfl, rfl⟩⟩
      | succ n =>
        obtain ⟨before, after, rfl, plain, start, stop⟩ := ih (pos + c.utf8Size) listed
        refine ⟨c :: before, after, rfl, plain, ?_, ?_⟩
        · rw [ends, List.getElem?_cons_succ, start, byteLength_cons, move]
        · rw [ends, List.getElem?_cons_succ, List.cons_append, byteLength_cons, move]
          exact stop
    · have ends : newlineEnds pos (c :: cs) = newlineEnds (pos + c.utf8Size) cs := by
        rw [newlineEnds, if_neg newline]
      rw [splitOn_cons newline, List.getElem?_modifyHead] at listed
      cases n with
      | zero =>
        obtain ⟨piece, first, rfl⟩ := Option.map_eq_some_iff.mp listed
        obtain ⟨before, after, rfl, plain, start, stop⟩ := ih (pos + c.utf8Size) first
        -- The first piece starts where the text does.
        obtain rfl : before = [] := by
          by_contra some_
          have := byteLength_pos some_
          have : pos + c.utf8Size = pos + c.utf8Size + byteLength before := by simpa using start
          omega
        refine ⟨[], after, rfl, by simp [plain, Ne.symm newline], rfl, ?_⟩
        simp only [List.nil_append] at ends stop ⊢
        rw [ends, byteLength_cons, move]
        exact stop
      | succ n =>
        obtain ⟨before, after, rfl, plain, start, stop⟩ := ih (pos + c.utf8Size) listed
        refine ⟨c :: before, after, rfl, plain, ?_, ?_⟩
        · rw [ends, byteLength_cons, move]
          exact start
        · rw [ends, List.cons_append, byteLength_cons, move]
          exact stop

theorem length_splitOn_newline (cs : List Char) (pos : Nat) :
    (cs.splitOn '\n').length = (newlineEnds pos cs).length + 1 := by
  induction cs generalizing pos with
  | nil => rfl
  | cons c cs ih =>
    rw [newlineEnds]
    split
    · rename_i newline
      rw [newline, splitOn_newline_cons, List.length_cons, List.length_cons, ih]
    · rename_i other
      rw [splitOn_cons other, List.length_modifyHead, ih]

/-- Within a line there are no newlines to be removed from its end. -/
theorem rdropWhile_of_no_newline {piece : List Char} (plain : '\n' ∉ piece) :
    piece.rdropWhile (fun c => c == '\n' || c == '\r') = piece.rdropWhile (· == '\r') := by
  induction piece using List.reverseRecOn with
  | nil => rfl
  | append_singleton cs c ih =>
    have other : c ≠ '\n' := by
      rintro rfl
      simp at plain
    rw [List.rdropWhile_concat, List.rdropWhile_concat, ih (by simp_all)]
    simp [other]

namespace Chunk

theorem lineText_of_piece {c : Chunk} {n : Nat} {piece : List Char}
    (listed : (c.chars.splitOn '\n')[n]? = some piece) :
    c.lineText (n + 1) = String.ofList (piece.rdropWhile (· == '\r')) := by
  obtain ⟨before, after, whole, plain, start, stop⟩ := splitOn_newlineEnds 0 listed
  rw [Nat.zero_add] at start
  have first : c.lineStarts[n]? = some (byteLength before) := by
    rw [lineStarts, List.getElem?_toArray, start]
  have next : c.lineStarts[n + 1]? = (newlineEnds 0 c.chars)[n]? := by
    rw [lineStarts, List.getElem?_toArray, List.getElem?_cons_succ]
  unfold lineText
  simp only [first, Array.getD_eq_getD_getElem?, next]
  change String.ofList (List.rdropWhile _ _) = _
  congr 1
  rcases stop with ⟨rfl, none⟩ | ⟨rest, rfl, some_⟩
  · have slice := sliceBytes_append before piece []
    rw [← whole, ← List.append_nil (before ++ piece), ← whole] at slice
    rw [none, Option.getD_none, slice, Option.getD_some, rdropWhile_of_no_newline plain]
  · have slice := sliceBytes_append before (piece ++ ['\n']) rest
    have size : byteLength (before ++ (piece ++ ['\n'])) = byteLength (before ++ piece) + 1 := by
      rw [← List.append_assoc, byteLength_append]
      rfl
    have text : before ++ (piece ++ ['\n']) ++ rest = c.chars := by simp [whole]
    rw [size, text] at slice
    rw [some_, Option.getD_some, Nat.zero_add, slice, Option.getD_some, List.rdropWhile_concat,
      if_pos (by simp), rdropWhile_of_no_newline plain]

/-- Places in a text are exact. With `p` the offset, or the end of the text if that comes first,
the line is one more than the newline bytes before `p`, and the column is one more than the bytes
between the last of them and `p`. There is one more line than there are newline bytes, and the
texts of the lines are the pieces between newlines, without the carriage returns at their ends. -/
theorem lines_exact (c : Chunk) (offset : Nat) :
    (c.lineCol offset).line = 1 + (c.bytes.take (min offset c.bytes.length)).count 10 ∧
    (∃ start, LineStart c.bytes (min offset c.bytes.length) start ∧
      (c.lineCol offset).col = 1 + (min offset c.bytes.length - start)) ∧
    c.lineCount = 1 + c.bytes.count 10 ∧
    (List.range c.lineCount).map (fun n => c.lineText (n + 1)) =
      (c.text.toList.splitOn '\n').map fun piece =>
        String.ofList (piece.rdropWhile (· == '\r')) := by
  have count : c.lineCount = (newlineEnds 0 c.chars).length + 1 := by
    rw [lineCount, lineStarts, List.size_toArray, List.length_cons]
  obtain ⟨k, inside, before, after, found⟩ := c.lineCol_eq offset
  rw [bytes_eq, length_utf8, found]
  refine ⟨?_, ⟨_, lineStart_getD inside before after, Nat.add_comm _ _⟩, ?_, ?_⟩
  · rw [count_newlines inside before after (by rw [length_utf8]; omega), Nat.add_comm]
  · rw [count, newlineEnds_eq_byteEnds, length_byteEnds, Nat.add_comm]
  · have lengths : (c.text.toList.splitOn '\n').length = c.lineCount :=
      (length_splitOn_newline c.chars 0).trans count.symm
    refine List.ext_getElem (by simp [lengths]) fun n _ bound => ?_
    rw [List.length_map] at bound
    simp only [List.getElem_map, List.getElem_range]
    exact lineText_of_piece (List.getElem?_eq_getElem bound)

end Chunk
end Ember
