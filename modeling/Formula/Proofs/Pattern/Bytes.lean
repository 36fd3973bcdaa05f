import Formula.Pattern.Bytes
import Formula.Proofs.Pattern.Longest

/-!
# The longest match of bytes

A search that goes byte by byte, is told of a match one byte late and stops where the automaton is dead finds the
longest match of whole characters (`ByteAutomaton.Compiled.longestMatch?_eq`). Of the automaton nothing is assumed but
that it was made for the patterns (`ByteAutomaton.Compiled`): what its states tell, and which states are special and
dead. `Latest`, the last match that was told, is kept from byte to byte. Characters come in by `utf8_prefix_drop_iff`:
the texts whose bytes stand at an offset are the texts that stand there.

`byDerivatives` is such an automaton, for any patterns (`compiled_byDerivatives`).
-/

namespace Formula.Pattern

/-! ## Texts in UTF-8 -/

theorem utf8_nil : utf8 [] = [] := rfl

theorem utf8_cons (c : Char) (text : List Char) : utf8 (c :: text) = String.utf8EncodeChar c ++ utf8 text := rfl

theorem utf8_append (text text' : List Char) : utf8 (text ++ text') = utf8 text ++ utf8 text' :=
  List.flatMap_append

/-- The bytes of a string are those of its characters. -/
theorem utf8_toList (text : String) : utf8 text.toList = text.toByteArray.data.toList := by
  rw [← String.utf8Encode_toList, List.utf8Encode, List.toList_data_toByteArray]
  rfl

theorem length_utf8 (text : List Char) : (utf8 text).length = byteLength text := by
  induction text with
  | nil => rfl
  | cons c text ih => rw [utf8_cons, List.length_append, String.length_utf8EncodeChar, ih, byteLength]

theorem utf8_eq_nil_iff {text : List Char} : utf8 text = [] ↔ text = [] := by
  cases text with
  | nil => exact ⟨fun _ => rfl, fun _ => rfl⟩
  | cons c text =>
    rw [utf8_cons]
    exact ⟨fun h => absurd (List.append_eq_nil_iff.mp h).1 String.utf8EncodeChar_ne_nil, fun h => nomatch h⟩

theorem utf8_prefix_iff {text text' : List Char} : utf8 text <+: utf8 text' ↔ text <+: text' := by
  constructor
  · intro ⟨more, h⟩
    refine List.isPrefix_of_utf8Encode_append_eq_utf8Encode more.toByteArray ?_
    rw [List.utf8Encode, List.utf8Encode, ← List.toByteArray_append]
    exact congrArg List.toByteArray h
  · rintro ⟨more, rfl⟩
    exact ⟨utf8 more, (utf8_append text more).symm⟩

theorem utf8_inj {text text' : List Char} : utf8 text = utf8 text' ↔ text = text' := by
  refine ⟨fun h => ?_, congrArg utf8⟩
  have hto : text <+: text' := utf8_prefix_iff.mp (h ▸ List.prefix_rfl)
  have hfrom : text' <+: text := utf8_prefix_iff.mp (h ▸ List.prefix_rfl)
  exact hto.eq_of_length_le hfrom.length_le

/-- Between the bytes of a character no character begins. -/
theorem not_prefix_drop_utf8EncodeChar {c d : Char} {n : Nat} (hpos : 0 < n) (hn : n < c.utf8Size)
    (bytes : List UInt8) :
    ¬ String.utf8EncodeChar d <+: (String.utf8EncodeChar c).drop n ++ bytes := by
  intro h
  have hc : n < (String.utf8EncodeChar c).length := by rwa [String.length_utf8EncodeChar]
  have hd : 0 < (String.utf8EncodeChar d).length := List.length_pos_of_ne_nil String.utf8EncodeChar_ne_nil
  have hfirst : (String.utf8EncodeChar d)[0] = (String.utf8EncodeChar c)[n] := by
    rw [h.getElem hd, List.getElem_append_left (by rw [List.length_drop]; omega), List.getElem_drop]
    rfl
  have hbegins : (String.utf8EncodeChar d)[0].IsUTF8FirstByte :=
    UInt8.isUTF8FirstByte_getElem_utf8EncodeChar.mpr rfl
  rw [hfirst, UInt8.isUTF8FirstByte_getElem_utf8EncodeChar] at hbegins
  omega

/-- The texts whose bytes stand at an offset are those that stand there. -/
theorem utf8_prefix_drop_iff {text front : List Char} {offset : Nat} :
    utf8 front <+: (utf8 text).drop offset ↔ front <+: fromByte offset text := by
  induction text generalizing offset with
  | nil =>
    have hnil : fromByte offset [] = [] := by cases offset <;> rfl
    rw [hnil, utf8_nil, List.drop_nil, List.prefix_nil, List.prefix_nil, utf8_eq_nil_iff]
  | cons c text ih =>
    cases offset with
    | zero => exact utf8_prefix_iff
    | succ n =>
      rw [fromByte, utf8_cons]
      split
      · rename_i hle
        rw [List.drop_append, List.drop_eq_nil_of_le (by rwa [String.length_utf8EncodeChar]), List.nil_append,
          String.length_utf8EncodeChar, ih]
      · rename_i hlt
        have hlt : n + 1 < c.utf8Size := Nat.lt_of_not_le hlt
        rw [List.drop_append_of_le_length (by rw [String.length_utf8EncodeChar]; omega), List.prefix_nil]
        constructor
        · intro h
          cases front with
          | nil => rfl
          | cons d front =>
            have hd : String.utf8EncodeChar d <+: utf8 (d :: front) := ⟨utf8 front, rfl⟩
            exact absurd (hd.trans h) (not_prefix_drop_utf8EncodeChar (Nat.succ_pos n) hlt _)
        · rintro rfl
          exact List.nil_prefix

theorem byteLength_take_lt {text : List Char} {k l : Nat} (hkl : k < l) (hl : l ≤ text.length) :
    byteLength (text.take k) < byteLength (text.take l) := by
  induction text generalizing k l with
  | nil => simp only [List.length_nil] at hl; omega
  | cons c text ih =>
    obtain ⟨l, rfl⟩ : ∃ l', l = l' + 1 := Nat.exists_eq_succ_of_ne_zero (by omega)
    have hpos := c.utf8Size_pos
    cases k with
    | zero => simp only [List.take_zero, List.take_succ_cons, byteLength]; omega
    | succ k =>
      have := ih (Nat.lt_of_succ_lt_succ hkl) (Nat.le_of_succ_le_succ hl)
      simp only [List.take_succ_cons, byteLength]
      omega

theorem byteLength_take_le {text : List Char} {k l : Nat} (hkl : k ≤ l) (hl : l ≤ text.length) :
    byteLength (text.take k) ≤ byteLength (text.take l) := by
  rcases Nat.eq_or_lt_of_le hkl with rfl | hkl
  · exact Nat.le_refl _
  · exact Nat.le_of_lt (byteLength_take_lt hkl hl)

/-! ## Matches of bytes -/

/-- The bytes are a text that the pattern with a number matches. -/
def AcceptsBytes (ps : List Pattern) (bytes : List UInt8) (i : Nat) : Prop :=
  ∃ text, utf8 text = bytes ∧ Accepts ps text i

/-- The first of the patterns that match the bytes. -/
def AcceptsFirst (ps : List Pattern) (bytes : List UInt8) (i : Nat) : Prop :=
  AcceptsBytes ps bytes i ∧ ∀ j, AcceptsBytes ps bytes j → i ≤ j

variable {ps : List Pattern}

theorem acceptsBytes_utf8 {text : List Char} {i : Nat} : AcceptsBytes ps (utf8 text) i ↔ Accepts ps text i := by
  constructor
  · intro ⟨_, he, h⟩
    exact utf8_inj.mp he ▸ h
  · exact fun h => ⟨text, rfl, h⟩

/-- Where no text is matched by two patterns, the first is the only one. -/
theorem acceptsFirst_eq (h : ∀ text i j, Accepts ps text i → Accepts ps text j → i = j) :
    AcceptsFirst ps = AcceptsBytes ps := by
  funext bytes i
  refine propext ⟨And.left, fun hi => ⟨hi, ?_⟩⟩
  obtain ⟨text, rfl, ha⟩ := hi
  exact fun j hj => Nat.le_of_eq (h text i j ha (acceptsBytes_utf8.mp hj))

theorem AcceptsFirst.unique {bytes : List UInt8} {i j : Nat} (hi : AcceptsFirst ps bytes i)
    (hj : AcceptsFirst ps bytes j) : i = j :=
  Nat.le_antisymm (hi.2 j hj.1) (hj.2 i hi.1)

/-- Of the fronts of the bytes at an offset, patterns match those that are fronts of the text there. -/
theorem acceptsBytes_take_iff {text : List Char} {offset n i : Nat} (hn : n ≤ ((utf8 text).drop offset).length) :
    AcceptsBytes ps (((utf8 text).drop offset).take n) i ↔
      ∃ k ≤ (fromByte offset text).length, byteLength ((fromByte offset text).take k) = n ∧
        Accepts ps ((fromByte offset text).take k) i := by
  constructor
  · intro ⟨front, he, h⟩
    have hfront : front <+: fromByte offset text := utf8_prefix_drop_iff.mp (he ▸ List.take_prefix _ _)
    have hlength := congrArg List.length he
    rw [length_utf8, List.length_take, Nat.min_eq_left hn] at hlength
    refine ⟨front.length, hfront.length_le, ?_⟩
    rw [← List.prefix_iff_eq_take.mp hfront]
    exact ⟨hlength, h⟩
  · intro ⟨k, _, hk, h⟩
    have hbytes : utf8 ((fromByte offset text).take k) <+: (utf8 text).drop offset :=
      utf8_prefix_drop_iff.mpr (List.take_prefix _ _)
    have he := List.prefix_iff_eq_take.mp hbytes
    rw [length_utf8, hk] at he
    exact ⟨_, he, h⟩

/-! ## The last match -/

/-- What is told of a match is right: a pattern that is told matched, and if none is told then none did. -/
structure Tells (told : Option Nat) (accepts : Nat → Prop) : Prop where
  found : ∀ i, told = some i → accepts i
  nothing : told = none → ∀ i, ¬ accepts i

/-- The last match among the fronts of some bytes that have fewer than `k`. -/
structure Latest (accepts : List UInt8 → Nat → Prop) (bytes : List UInt8) (k : Nat) (last : Option Match) : Prop where
  nothing : last = none → ∀ n i, n < k → ¬ accepts (bytes.take n) i
  found : ∀ m, last = some m → m.length < k ∧ accepts (bytes.take m.length) m.pattern ∧
    ∀ n i, m.length < n → n < k → ¬ accepts (bytes.take n) i

variable {accepts : List UInt8 → Nat → Prop} {bytes : List UInt8} {k : Nat} {last : Option Match}

theorem Latest.of_accepts {i : Nat} (hi : accepts (bytes.take k) i) :
    Latest accepts bytes (k + 1) (some ⟨i, k⟩) where
  nothing hn := nomatch hn
  found m hm := by
    obtain rfl := Option.some.inj hm
    exact ⟨Nat.lt_succ_self k, hi, fun n _ hn hk => absurd (Nat.le_of_lt_succ hk) (Nat.not_le_of_lt hn)⟩

theorem Latest.of_not_accepts (h : Latest accepts bytes k last) (hk : ∀ i, ¬ accepts (bytes.take k) i) :
    Latest accepts bytes (k + 1) last where
  nothing hl n i hn := by
    rcases Nat.lt_succ_iff_lt_or_eq.mp hn with hn | rfl
    · exact h.nothing hl n i hn
    · exact hk i
  found m hm := by
    obtain ⟨hlt, hacc, hlater⟩ := h.found m hm
    refine ⟨Nat.lt_succ_of_lt hlt, hacc, fun n i hmn hn => ?_⟩
    rcases Nat.lt_succ_iff_lt_or_eq.mp hn with hn | rfl
    · exact hlater n i hmn hn
    · exact hk i

/-- Where each text has one match at most, there is one last match. -/
theorem Latest.unique (hone : ∀ bytes i j, accepts bytes i → accepts bytes j → i = j) {last' : Option Match}
    (h : Latest accepts bytes k last) (h' : Latest accepts bytes k last') : last = last' := by
  cases last with
  | none =>
    cases last' with
    | none => rfl
    | some m' =>
      obtain ⟨hlt, hacc, -⟩ := h'.found m' rfl
      exact absurd hacc (h.nothing rfl _ _ hlt)
  | some m =>
    obtain ⟨hlt, hacc, hlater⟩ := h.found m rfl
    cases last' with
    | none => exact absurd hacc (h'.nothing rfl _ _ hlt)
    | some m' =>
      obtain ⟨hlt', hacc', hlater'⟩ := h'.found m' rfl
      obtain ⟨i, n⟩ := m
      obtain ⟨i', n'⟩ := m'
      dsimp only at hlt hacc hlater hlt' hacc' hlater'
      rcases Nat.lt_trichotomy n n' with hn | rfl | hn
      · exact absurd hacc' (hlater _ _ hn hlt')
      · rw [hone _ _ _ hacc hacc']
      · exact absurd hacc (hlater' _ _ hn hlt)

/-- The longest match of whole characters is the last one among the fronts of their bytes. -/
theorem latest_longestAt (ps : List Pattern) (text : List Char) (offset : Nat) :
    Latest (AcceptsFirst ps) ((utf8 text).drop offset) (((utf8 text).drop offset).length + 1)
      (longestAt ps text offset) := by
  have hbest := longest_best ps (fromByte offset text)
  refine ⟨fun hnone n i hn hacc => ?_, fun m hsome => ?_⟩
  · obtain ⟨k, hk, -, ha⟩ := (acceptsBytes_take_iff (Nat.le_of_lt_succ hn)).mp hacc.1
    exact hbest.none (Option.map_eq_none_iff.mp hnone) (Nat.lt_succ_of_le hk) ha
  · obtain ⟨⟨p, l⟩, hm, rfl⟩ := Option.map_eq_some_iff.mp hsome
    obtain ⟨hl, ha, hfirst⟩ := hbest.some hm
    have hl := Nat.le_of_lt_succ hl
    dsimp only at ha hfirst hl ⊢
    have hbytes : utf8 ((fromByte offset text).take l) <+: (utf8 text).drop offset :=
      utf8_prefix_drop_iff.mpr (List.take_prefix _ _)
    have hle := hbytes.length_le
    rw [length_utf8] at hle
    refine ⟨Nat.lt_succ_of_le hle, ⟨(acceptsBytes_take_iff hle).mpr ⟨l, hl, rfl, ha⟩, fun j hj => ?_⟩, ?_⟩
    · obtain ⟨k, hk, hkl, hj⟩ := (acceptsBytes_take_iff hle).mp hj
      rcases hfirst (Nat.lt_succ_of_le hk) hj with hlt | ⟨-, hpj⟩
      · exact absurd hkl (Nat.ne_of_lt (byteLength_take_lt hlt hl))
      · exact hpj
    · intro n j hln hn hacc
      obtain ⟨k, hk, rfl, hj⟩ := (acceptsBytes_take_iff (Nat.le_of_lt_succ hn)).mp hacc.1
      have hkl : k ≤ l := by
        rcases hfirst (Nat.lt_succ_of_le hk) hj with hlt | ⟨rfl, -⟩
        · exact Nat.le_of_lt hlt
        · exact Nat.le_refl _
      exact Nat.not_le_of_lt hln (byteLength_take_le hkl hl)

/-! ## Searching -/

namespace ByteAutomaton

variable {σ : Type} {a : ByteAutomaton σ} {start : σ}

theorem after_concat (a : ByteAutomaton σ) (s : σ) (bytes : List UInt8) (b : UInt8) :
    a.after s (bytes ++ [b]) = a.next (a.after s bytes) b := by
  rw [after, List.foldl_append]
  rfl

/-- An automaton that was made to find what is accepted, and the state it begins in. A state tells what the bytes in
front of the last one match, and the state at the end of the text what all of them match. Only special states tell of a
match or are dead or given up; a dead state stays dead and tells of nothing, and the automaton does not give up. -/
structure Compiled (a : ByteAutomaton σ) (start : σ) (accepts : List UInt8 → Nat → Prop) : Prop where
  start_eq : a.start? = some start
  next : ∀ bytes b, Tells (a.matched? (a.after start (bytes ++ [b]))) (accepts bytes)
  finish : ∀ bytes, Tells (a.matched? (a.finish (a.after start bytes))) (accepts bytes)
  special : ∀ s, (a.matched? s).isSome ∨ a.isDead s ∨ a.isQuit s → a.isSpecial s
  dead : ∀ s, a.isDead s → a.matched? s = none ∧ (∀ b, a.isDead (a.next s b)) ∧ a.isDead (a.finish s)
  quit : ∀ bytes, a.isQuit (a.after start bytes) = false

theorem Compiled.isDead_after (h : a.Compiled start accepts) {s : σ} (hd : a.isDead s) (bytes : List UInt8) :
    a.isDead (a.after s bytes) := by
  induction bytes generalizing s with
  | nil => exact hd
  | cons b bytes ih => exact ih ((h.dead s hd).2.1 b)

/-- Behind a dead state there is no match. -/
theorem Compiled.not_accepts (h : a.Compiled start accepts) (hd : a.isDead (a.after start bytes))
    (more : List UInt8) (i : Nat) : ¬ accepts (bytes ++ more) i := by
  refine (h.finish (bytes ++ more)).nothing ?_ i
  rw [after, List.foldl_append]
  exact (h.dead _ (h.dead _ (h.isDead_after hd more)).2.2).1

/-- So a search may stop there. -/
theorem Compiled.latest_stop (h : a.Compiled start accepts) (hd : a.isDead (a.after start (bytes.take k)))
    (hk : k ≤ bytes.length) (hl : Latest accepts bytes k last) :
    Latest accepts bytes (bytes.length + 1) last := by
  have hlater : ∀ n i, k ≤ n → ¬ accepts (bytes.take n) i := by
    intro n i hn
    rw [← Nat.add_sub_cancel' hn, List.take_add]
    exact h.not_accepts hd _ i
  refine ⟨fun hnone n i _ => ?_, fun m hm => ?_⟩
  · rcases Nat.lt_or_ge n k with hn | hn
    · exact hl.nothing hnone n i hn
    · exact hlater n i hn
  · obtain ⟨hlt, hacc, hnot⟩ := hl.found m hm
    refine ⟨by omega, hacc, fun n i hmn _ => ?_⟩
    rcases Nat.lt_or_ge n k with hn | hn
    · exact hnot n i hmn hn
    · exact hlater n i hn

/-- A search that has come to some place goes on to the last match. -/
theorem Compiled.latest_search (h : a.Compiled start accepts) {rest : List UInt8} (hk : k ≤ bytes.length)
    (hrest : bytes.drop k = rest) (hl : Latest accepts bytes k last) :
    Latest accepts bytes (bytes.length + 1) (a.search (a.after start (bytes.take k)) last k rest) := by
  induction rest generalizing k last with
  | nil =>
    obtain rfl : k = bytes.length := Nat.le_antisymm hk (List.drop_eq_nil_iff.mp hrest)
    have htold := h.finish (bytes.take bytes.length)
    rw [search]
    split
    · exact .of_accepts (htold.found _ ‹_›)
    · exact hl.of_not_accepts (htold.nothing ‹_›)
  | cons b rest ih =>
    obtain ⟨hlt, hdrop, htake⟩ := take_of_drop_eq_cons hrest
    have hstate : a.next (a.after start (bytes.take k)) b = a.after start (bytes.take (k + 1)) := by
      rw [htake, after_concat]
    have htold := h.next (bytes.take k) b
    rw [← htake] at htold
    rw [search, hstate]
    generalize hs : a.after start (bytes.take (k + 1)) = s at htold ⊢
    split
    · split
      · rw [← hs]
        exact ih hlt hdrop (.of_accepts (htold.found _ ‹_›))
      · have hl' := hl.of_not_accepts (htold.nothing ‹_›)
        split
        · -- the automaton does not give up, so it is dead
          rename_i hstop
          rw [← hs, h.quit, Bool.or_false] at hstop
          exact h.latest_stop hstop hlt hl'
        · rw [← hs]
          exact ih hlt hdrop hl'
    · rename_i hspecial
      have hnone : a.matched? s = none := by
        rw [← Option.not_isSome_iff_eq_none]
        exact fun hsome => hspecial (h.special s (.inl hsome))
      rw [← hs]
      exact ih hlt hdrop (hl.of_not_accepts (htold.nothing hnone))

/-- An automaton made for the patterns finds the longest match, at any offset of any text. -/
theorem Compiled.longestMatch?_eq (h : a.Compiled start (AcceptsFirst ps)) (text : List Char) (offset : Nat) :
    a.longestMatch? (utf8 text) offset = some (longestAt ps text offset) := by
  have hbegin : Latest (AcceptsFirst ps) ((utf8 text).drop offset) 0 none :=
    ⟨fun _ n _ hn => absurd hn (Nat.not_lt_zero n), fun m hm => nomatch hm⟩
  have hlatest := h.latest_search (Nat.zero_le _) rfl hbegin
  have hone : ∀ bytes i j, AcceptsFirst ps bytes i → AcceptsFirst ps bytes j → i = j :=
    fun _ _ _ => AcceptsFirst.unique
  rw [longestMatch?, h.start_eq, Option.map_some]
  exact congrArg some (hlatest.unique hone (latest_longestAt ps text offset))

end ByteAutomaton

/-! ## Derivatives -/

theorem char?_eq_some_iff {bytes : List UInt8} {c : Char} :
    char? bytes = some c ↔ String.utf8EncodeChar c <+: bytes := by
  constructor
  · intro h
    obtain ⟨more, he⟩ := ByteArray.exists_of_utf8DecodeChar?_eq_some h
    have he := congrArg (·.data.toList) he
    simp only [ByteArray.data_append, Array.toList_append, List.toList_data_toByteArray] at he
    exact ⟨more.data.toList, he.symm⟩
  · rintro ⟨more, rfl⟩
    rw [char?, List.toByteArray_append]
    exact ByteArray.utf8DecodeChar?_utf8EncodeChar_append

namespace ByteFront

/-- One byte late it is told what had matched. -/
theorem told_next (s : ByteFront) (b : UInt8) : (s.next b).told = s.accepted? := by
  unfold next
  split <;> rfl

/-- Where nothing is left of the patterns, none matches. -/
theorem accepted?_of_front_eq_nil {s : ByteFront} (h : s.front = []) : s.accepted? = none := by
  unfold accepted?
  split
  · rw [h]; rfl
  · rfl

/-- A state behind some bytes: a text was read, and behind it bytes that no character begins. -/
structure After (ps : List Pattern) (read : List UInt8) (s : ByteFront) : Prop where
  cut : ∃ text, read = utf8 text ++ s.gathered ∧ s.front.After ps text
  partly : ∀ c, ¬ String.utf8EncodeChar c <+: s.gathered

theorem after_start (ps : List Pattern) : After ps [] (start ps) where
  cut := ⟨[], rfl, Front.after_start ps⟩
  partly _ h := String.utf8EncodeChar_ne_nil (List.prefix_nil.mp h)

variable {read : List UInt8} {s : ByteFront}

theorem After.next (h : After ps read s) (b : UInt8) : After ps (read ++ [b]) (s.next b) := by
  obtain ⟨text, hread, hfront⟩ := h.cut
  unfold ByteFront.next
  split
  · rename_i c hc
    -- the character takes all of the bytes, because it did not begin those before
    have hchar : String.utf8EncodeChar c = s.gathered ++ [b] := by
      rcases List.prefix_concat_iff.mp (char?_eq_some_iff.mp hc) with he | he
      · exact he
      · exact absurd he (h.partly c)
    refine ⟨⟨text ++ [c], ?_, hfront.advance c⟩, fun d hd => String.utf8EncodeChar_ne_nil (List.prefix_nil.mp hd)⟩
    calc read ++ [b] = utf8 text ++ (s.gathered ++ [b]) := by rw [hread, List.append_assoc]
      _ = utf8 text ++ utf8 [c] := by rw [← hchar, utf8_cons, utf8_nil, List.append_nil]
      _ = utf8 (text ++ [c]) ++ [] := by rw [List.append_nil, utf8_append]
  · rename_i hnone
    refine ⟨⟨text, ?_, hfront⟩, fun c hc => ?_⟩
    · rw [hread, List.append_assoc]
    · rw [char?_eq_some_iff.mpr hc] at hnone
      cases hnone

theorem After.after (h : After ps read s) (bytes : List UInt8) :
    After ps (read ++ bytes) ((byDerivatives ps).after s bytes) := by
  induction bytes generalizing read s with
  | nil => rwa [List.append_nil]
  | cons b bytes ih =>
    rw [← List.singleton_append, ← List.append_assoc]
    exact ih (h.next b)

/-- The patterns that match what was read are known. -/
theorem After.tells (h : After ps read s) : Tells s.accepted? (AcceptsFirst ps read) := by
  obtain ⟨text, rfl, hfront⟩ := h.cut
  unfold accepted?
  split
  · rename_i hnil
    rw [hnil, List.append_nil]
    refine ⟨fun i hi => ?_, fun hnone i hi => ?_⟩
    · obtain ⟨hacc, hfirst⟩ := hfront.accepted?_eq_some hi
      exact ⟨acceptsBytes_utf8.mpr hacc, fun j hj => hfirst (acceptsBytes_utf8.mp hj)⟩
    · exact hfront.accepted?_eq_none hnone i (acceptsBytes_utf8.mp hi.1)
  · -- with a part of a character behind it, what was read is no text
    rename_i hne
    refine ⟨fun i hi => (nomatch hi), fun _ i hi => ?_⟩
    obtain ⟨whole, he, -⟩ := hi.1
    obtain ⟨more, rfl⟩ := utf8_prefix_iff.mp ⟨s.gathered, he.symm⟩
    rw [utf8_append, List.append_cancel_left_eq] at he
    cases more with
    | nil => exact hne he.symm
    | cons c more => exact h.partly c ⟨utf8 more, he⟩

end ByteFront

/-- The automaton of any patterns is made for them. -/
theorem compiled_byDerivatives (ps : List Pattern) :
    (byDerivatives ps).Compiled (.start ps) (AcceptsFirst ps) where
  start_eq := rfl
  next bytes b := by
    have htells := ((ByteFront.after_start ps).after bytes).tells
    rw [List.nil_append, ← ByteFront.told_next _ b] at htells
    rw [ByteAutomaton.after_concat]
    exact htells
  finish bytes := ((ByteFront.after_start ps).after bytes).tells
  special s := by
    rintro (h | h | h)
    · exact Bool.or_eq_true_iff.mpr (.inl h)
    · exact Bool.or_eq_true_iff.mpr (.inr (Bool.and_eq_true_iff.mp h).2)
    · cases h
  dead s h := by
    obtain ⟨htold, hempty⟩ := Bool.and_eq_true_iff.mp h
    have hfront : s.front = [] := List.isEmpty_iff.mp hempty
    have haccepted := ByteFront.accepted?_of_front_eq_nil hfront
    refine ⟨Option.isNone_iff_eq_none.mp htold, fun b => ?_, ?_⟩
    · show ((s.next b).told.isNone && (s.next b).front.isEmpty) = true
      unfold ByteFront.next
      split
      · rw [haccepted, hfront]; rfl
      · rw [haccepted, hfront]; rfl
    · show (s.accepted?.isNone && s.front.isEmpty) = true
      rw [haccepted, hfront]; rfl
  quit _ := rfl

/-- Searched byte by byte, a text has the longest matches that it has character by character. -/
theorem longestMatch?_byDerivatives (ps : List Pattern) (text : List Char) (offset : Nat) :
    (byDerivatives ps).longestMatch? (utf8 text) offset = some (longestAt ps text offset) :=
  (compiled_byDerivatives ps).longestMatch?_eq text offset

example : (byDerivatives [.char '-', .text "->"]).longestMatch? (utf8 "→->x".toList) 3 = some (some ⟨1, 2⟩) := by
  decide +kernel

end Formula.Pattern
