-- Text with a carriage return before every line feed: how long each of its parts becomes,
-- and that the lines of a text block and the escapes of a string stand for the same.
import ShapeTraits.Proofs.Escapes
import ShapeTraits.Proofs.Lines

namespace ShapeTraits

open Byte (lineFeed carriageReturn backslash)

/-! ## Carriage returns before line feeds -/

namespace Bytes

/-- The bytes that a byte becomes where lines end with two. -/
def crlfOf (b : UInt8) : Bytes := if b = lineFeed then [carriageReturn, lineFeed] else [b]

/-- The text with a carriage return before every line feed. -/
def crlf (text : Bytes) : Bytes := text.flatMap crlfOf

/-- How many bytes the first so many bytes of a text become. Bytes that are not there
count as they did. -/
def stretch : (text : Bytes) → (count : Nat) → Nat
  | _, 0 => 0
  | [], count + 1 => count + 1
  | b :: text, count + 1 => (crlfOf b).length + stretch text count

variable {a b text : Bytes} {first : UInt8} {p : UInt8 → Bool}

@[simp] theorem crlf_nil : crlf [] = [] := rfl

@[simp] theorem crlf_append (a b : Bytes) : crlf (a ++ b) = crlf a ++ crlf b := List.flatMap_append

@[simp] theorem crlf_lineFeed (text : Bytes) :
    crlf (lineFeed :: text) = carriageReturn :: lineFeed :: crlf text := rfl

theorem crlf_cons (h : first ≠ lineFeed) (text : Bytes) :
    crlf (first :: text) = first :: crlf text := by
  rw [crlf, List.flatMap_cons, crlfOf, if_neg h]
  rfl

@[simp] theorem crlf_eq_nil : crlf text = [] ↔ text = [] := by
  cases text with
  | nil => exact Iff.rfl
  | cons b text =>
    by_cases hb : b = lineFeed
    · simp [hb]
    · simp [crlf_cons hb]

theorem crlf_of_not_mem (h : lineFeed ∉ text) : crlf text = text := by
  induction text with
  | nil => rfl
  | cons b text ih =>
    obtain ⟨hb, htext⟩ := not_or.mp (mt List.mem_cons.mpr h)
    rw [crlf_cons (Ne.symm hb), ih htext]

@[simp] theorem stretch_zero (text : Bytes) : stretch text 0 = 0 := by
  cases text <;> rfl

theorem stretch_lineFeed (text : Bytes) (count : Nat) :
    stretch (lineFeed :: text) (count + 1) = 2 + stretch text count := rfl

theorem stretch_cons (h : first ≠ lineFeed) (text : Bytes) (count : Nat) :
    stretch (first :: text) (count + 1) = 1 + stretch text count := by
  rw [stretch, crlfOf, if_neg h]
  rfl

theorem stretch_eq (text : Bytes) (count : Nat) :
    stretch text count = (crlf (text.take count)).length + (count - text.length) := by
  induction text generalizing count with
  | nil => cases count <;> simp [stretch]
  | cons b text ih =>
    cases count with
    | zero => simp
    | succ count =>
      have hcons : crlf (b :: text.take count) = crlfOf b ++ crlf (text.take count) := rfl
      rw [stretch, ih, List.take_succ_cons, hcons, List.length_append, List.length_cons]
      omega

/-- What is behind the first bytes of a text is behind those that they become. -/
theorem drop_stretch (text : Bytes) (count : Nat) :
    (crlf text).drop (stretch text count) = crlf (text.drop count) := by
  induction text generalizing count with
  | nil => simp
  | cons b text ih =>
    cases count with
    | zero => simp
    | succ count =>
      have hcons : crlf (b :: text) = crlfOf b ++ crlf text := rfl
      rw [stretch, hcons, List.drop_append, List.drop_eq_nil_of_le (by omega), List.nil_append,
        Nat.add_sub_cancel_left, ih, List.drop_succ_cons]

theorem take_stretch (text : Bytes) (count : Nat) :
    (crlf text).take (stretch text count) = crlf (text.take count) := by
  induction text generalizing count with
  | nil => simp
  | cons b text ih =>
    cases count with
    | zero => simp
    | succ count =>
      have hcons (rest : Bytes) : crlf (b :: rest) = crlfOf b ++ crlf rest := rfl
      rw [stretch, hcons, List.take_append, List.take_of_length_le (by omega),
        Nat.add_sub_cancel_left, ih, List.take_succ_cons, hcons]

theorem stretch_add (text : Bytes) (j k : Nat) :
    stretch text (j + k) = stretch text j + stretch (text.drop j) k := by
  induction text generalizing j with
  | nil => cases j <;> cases k <;> simp [stretch]; omega
  | cons b text ih =>
    cases j with
    | zero => simp
    | succ j =>
      rw [Nat.add_right_comm, stretch, stretch, ih, List.drop_succ_cons, Nat.add_assoc]

/-- Within a line nothing becomes longer. -/
theorem stretch_of_not_mem {count : Nat} (h : lineFeed ∉ text.take count) :
    stretch text count = count := by
  have hlength : (text.take count).length = min count text.length := List.length_take
  rw [stretch_eq, crlf_of_not_mem h, hlength]
  omega

theorem takeWhile_crlf (hfeed : p lineFeed = false) (hreturn : p carriageReturn = false)
    (text : Bytes) :
    (crlf text).takeWhile p = text.takeWhile p := by
  induction text with
  | nil => rfl
  | cons b text ih =>
    by_cases hb : b = lineFeed
    · subst hb
      rw [crlf_lineFeed, List.takeWhile_cons_of_neg (by simp [hreturn]),
        List.takeWhile_cons_of_neg (by simp [hfeed])]
    · rw [crlf_cons hb, List.takeWhile_cons, List.takeWhile_cons, ih]

theorem stretch_takeWhile (hfeed : p lineFeed = false) (text : Bytes) :
    stretch text (text.takeWhile p).length = (text.takeWhile p).length := by
  refine stretch_of_not_mem fun hmem => ?_
  have htake : text.take (text.takeWhile p).length = text.takeWhile p :=
    (List.prefix_iff_eq_take.mp (List.takeWhile_prefix p)).symm
  rw [htake] at hmem
  have hp := List.all_eq_true.mp List.all_takeWhile _ hmem
  rw [hfeed] at hp
  cases hp

theorem head_crlf (hfeed : first ≠ lineFeed) (hreturn : first ≠ carriageReturn) (text : Bytes) :
    (crlf text).head? = some first ↔ text.head? = some first := by
  cases text with
  | nil => exact Iff.rfl
  | cons b text =>
    by_cases hb : b = lineFeed
    · subst hb
      simp [Ne.symm hfeed, Ne.symm hreturn]
    · rw [crlf_cons hb]
      rfl

end Bytes

open Bytes

/-! ## Text blocks -/

namespace TextBlock

theorem withoutReturn_of_not_mem {line : Bytes} (h : carriageReturn ∉ line) :
    Source.withoutReturn line = line := by
  unfold Source.withoutReturn
  rw [if_neg fun hlast => h (List.mem_of_getLast? hlast)]

theorem bodyLines_crlf {body : Bytes} (h : carriageReturn ∉ body) :
    bodyLines (crlf body) = bodyLines body := by
  induction body using Bytes.byLines with
  | last line hline => rw [crlf_of_not_mem hline]
  | cons line rest hline ih =>
    obtain ⟨hbefore, hrest⟩ := not_or.mp (mt List.mem_append.mpr h)
    have hcrlf : crlf (line ++ lineFeed :: rest) =
        line ++ [carriageReturn] ++ lineFeed :: crlf rest := by
      rw [crlf_append, crlf_of_not_mem hline, crlf_lineFeed, List.append_assoc]
      rfl
    have hended : Source.withoutReturn (line ++ [carriageReturn]) = line := by
      simp [Source.withoutReturn]
    have hline' : lineFeed ∉ line ++ [carriageReturn] := by
      rw [List.mem_append, List.mem_singleton, not_or]
      exact ⟨hline, by decide⟩
    rw [hcrlf, bodyLines_append hline', bodyLines_append hline, hended,
      withoutReturn_of_not_mem hbefore, ih fun hmem => hrest (List.mem_cons_of_mem _ hmem)]

theorem layOut_crlf {body : Bytes} (h : carriageReturn ∉ body) :
    layOut (crlf body) = layOut body := by
  unfold layOut
  rw [bodyLines_crlf h]

end TextBlock

/-! ## Escapes -/

/-- Every line feed in a text is hidden by a backslash before it. -/
def Bytes.hidesLineFeeds : Bytes → Bool
  | [] => true
  | b :: rest =>
    if b = backslash then
      match rest with
      | [] => true
      | _ :: rest => hidesLineFeeds rest
    else b != lineFeed && hidesLineFeeds rest

namespace Bytes

variable {a b text : Bytes} {first : UInt8}

theorem hidesLineFeeds_cons (h : first ≠ backslash) : hidesLineFeeds (first :: text) = true ↔
    first ≠ lineFeed ∧ hidesLineFeeds text = true := by
  rw [hidesLineFeeds.eq_def]
  simp [h]

theorem hidesLineFeeds_escape (c : UInt8) (text : Bytes) :
    hidesLineFeeds (backslash :: c :: text) = hidesLineFeeds text := by
  rw [hidesLineFeeds.eq_def]
  simp

theorem hidesLineFeeds_left (h : hidesLineFeeds (a ++ b) = true) : hidesLineFeeds a = true := by
  fun_induction hidesLineFeeds a with
  | case1 => rfl
  | case2 => rfl
  | case3 c rest ih =>
    exact ih (by rwa [List.cons_append, List.cons_append, hidesLineFeeds_escape] at h)
  | case4 first rest hfirst ih =>
    obtain ⟨hfeed, hrest⟩ := (hidesLineFeeds_cons hfirst).mp h
    simp [hfeed, ih hrest]

/-- Behind bytes that hide nothing, the same bytes are hidden. -/
theorem hidesLineFeeds_drop {count : Nat} (hplain : ∀ b ∈ text.take count, b ≠ backslash)
    (h : hidesLineFeeds text = true) : hidesLineFeeds (text.drop count) = true := by
  induction text generalizing count with
  | nil => simpa using h
  | cons b text ih =>
    cases count with
    | zero => exact h
    | succ count =>
      rw [List.take_succ_cons, List.forall_mem_cons] at hplain
      exact ih hplain.2 ((hidesLineFeeds_cons hplain.1).mp h).2

end Bytes

namespace Escape

variable {text meant : Bytes} {unit taken : Nat}

theorem unitByte_no_feed : ∀ b, Byte.isUnitByte b = true → b ≠ lineFeed := by
  exact Byte.forall_of_lt (by decide +kernel)

theorem hexDigit_no_mark : ∀ b, Byte.isHexDigit b = true → b ≠ lineFeed ∧ b ≠ backslash := by
  exact Byte.forall_of_lt (by decide +kernel)

theorem stretch_codeUnit (h : codeUnit? text = some unit) : stretch text 4 = 4 :=
  stretch_of_not_mem fun hmem => (hexDigit_no_mark _ ((codeUnit_digits h).2 _ hmem)).1 rfl

theorem stretch_unicode (h : unicode text = .ok (meant, taken)) :
    ∃ count, taken = count + 1 ∧ stretch text count = count := by
  obtain ⟨count, htaken, hbytes⟩ := unicode_bytes h
  exact ⟨count, htaken, stretch_of_not_mem fun hmem => unitByte_no_feed _ (hbytes _ hmem) rfl⟩

/-- Only digits are looked at. -/
theorem codeUnit_takeWhile (text : Bytes) :
    codeUnit? (text.takeWhile Byte.isHexDigit) = codeUnit? text := by
  have hnone {b : UInt8} (h : Byte.isHexDigit b = false) : Byte.hexValue? b = none := by
    simpa [Byte.isHexDigit] using h
  rcases text with _ | ⟨a, _ | ⟨b, _ | ⟨c, _ | ⟨d, rest⟩⟩⟩⟩
  · rfl
  · cases ha : Byte.isHexDigit a <;> simp [ha, codeUnit?]
  · cases ha : Byte.isHexDigit a <;> cases hb : Byte.isHexDigit b <;> simp [ha, hb, codeUnit?]
  · cases ha : Byte.isHexDigit a <;> cases hb : Byte.isHexDigit b <;>
      cases hc : Byte.isHexDigit c <;>
      simp [ha, hb, hc, codeUnit?]
  · cases ha : Byte.isHexDigit a with
    | false => simp [ha, codeUnit?, hnone ha]
    | true =>
      cases hb : Byte.isHexDigit b with
      | false => simp [ha, hb, codeUnit?, hnone hb]
      | true =>
        cases hc : Byte.isHexDigit c with
        | false => simp [ha, hb, hc, codeUnit?, hnone hc]
        | true => cases hd : Byte.isHexDigit d <;> simp [ha, hb, hc, hd, codeUnit?, hnone]

theorem codeUnit_crlf (text : Bytes) : codeUnit? (crlf text) = codeUnit? text := by
  rw [← codeUnit_takeWhile, takeWhile_crlf rfl rfl, codeUnit_takeWhile]

theorem lowSurrogate_crlf (text : Bytes) : lowSurrogate? (crlf text) = lowSurrogate? text := by
  cases text with
  | nil => rfl
  | cons b text =>
    by_cases hb : b = lineFeed
    · subst hb
      cases text with
      | nil => rfl
      | cons c text => rfl
    rw [crlf_cons hb]
    cases text with
    | nil => rfl
    | cons c text =>
      by_cases hc : c = lineFeed
      · subst hc
        have hno (sign : UInt8) (hsign : sign ≠ unitMark) (rest : Bytes) :
            lowSurrogate? (b :: sign :: rest) = none := if_neg fun h => hsign h.2
        rw [crlf_lineFeed, hno _ (by decide), hno _ (by decide)]
      · rw [crlf_cons hc, lowSurrogate?, lowSurrogate?, codeUnit_crlf]

theorem unicode_crlf (text : Bytes) : unicode (crlf text) = unicode text := by
  unfold unicode
  rw [codeUnit_crlf]
  cases hunit : codeUnit? text with
  | none => rfl
  | some unit =>
    have hdrop := drop_stretch text 4
    rw [stretch_codeUnit hunit] at hdrop
    rw [hdrop, lowSurrogate_crlf]

/-- An item stands for the same, and takes what its bytes become. -/
theorem item_crlf (h : carriageReturn ∉ text) : item backslash (crlf text) =
    (item backslash text).map fun found => (found.1, stretch text found.2) := by
  cases text with
  | nil => rfl
  | cons b after =>
    by_cases hfeed : b = lineFeed
    · subst hfeed
      have hlf : item backslash (lineFeed :: after) = .ok ([], 1) := rfl
      have hcrlf : item backslash (carriageReturn :: lineFeed :: crlf after) = .ok ([], 2) := rfl
      rw [crlf_lineFeed, hlf, hcrlf]
      simp [Except.map, stretch_lineFeed]
    have hreturn : b ≠ carriageReturn := fun hb => h (hb ▸ List.mem_cons_self)
    rw [crlf_cons hfeed]
    unfold item
    rw [if_neg (not_not_intro rfl), if_neg (not_not_intro rfl)]
    dsimp only
    cases named? b with
    | some sign =>
      have hone : stretch (b :: after) 1 = 1 := by rw [stretch_cons hfeed, stretch_zero]
      simp [Except.map, hone]
    | none =>
      simp only [if_neg hfeed, if_neg hreturn]
      by_cases hmark : b = unitMark
      · rw [if_pos hmark, if_pos hmark, unicode_crlf]
        cases hunit : unicode after with
        | error fault => rfl
        | ok found =>
          obtain ⟨meant, taken⟩ := found
          obtain ⟨count, rfl, hcount⟩ := stretch_unicode hunit
          have hsame : stretch (b :: after) (count + 1) = count + 1 := by
            rw [stretch_cons hfeed, hcount, Nat.add_comm]
          simp [Except.map, hsame]
      · rw [if_neg hmark, if_neg hmark]
        rfl

/-- Behind an item the same line feeds are hidden. -/
theorem hidesLineFeeds_item (hitem : item backslash text = .ok (meant, taken))
    (hreturn : carriageReturn ∉ text)
    (h : hidesLineFeeds (backslash :: text) = true) : hidesLineFeeds (text.drop taken) = true := by
  obtain ⟨b, after, rfl, hcases⟩ := item_eq_ok hitem
  rw [hidesLineFeeds_escape] at h
  have hplain {text : Bytes} {unit : Nat} (hunit : codeUnit? text = some unit) :
      ∀ b ∈ text.take 4, b ≠ backslash :=
        fun b hb => (hexDigit_no_mark b ((codeUnit_digits hunit).2 b hb)).2
  rcases hcases with ⟨sign, -, -, rfl⟩ | ⟨-, -, rfl⟩ | ⟨rfl, -, -⟩ | ⟨-, hunicode⟩
  · exact h
  · exact h
  · exact absurd List.mem_cons_self hreturn
  rcases unicode_eq_ok hunicode with
    ⟨unit, hunit, -, -, -, rfl⟩ | ⟨high, low, hhigh, -, hlow, -, rfl⟩
  · rw [List.drop_succ_cons]
    exact hidesLineFeeds_drop (hplain hunit) h
  · obtain ⟨rest, hrest, hunit, -⟩ := lowSurrogate_eq_some hlow
    have hbehind := hidesLineFeeds_drop (hplain hhigh) h
    rw [hrest, hidesLineFeeds_escape] at hbehind
    have hdrop : after.drop 10 = rest.drop 4 := by
      have hparts : after.drop 10 = (after.drop 4).drop 6 := by rw [List.drop_drop]
      rw [hparts, hrest]
      rfl
    rw [List.drop_succ_cons, hdrop]
    exact hidesLineFeeds_drop (hplain hunit) hbehind

theorem decode_escape_crlf {rest : Bytes} (hitem : item backslash rest = .ok (meant, taken))
    (hreturn : carriageReturn ∉ rest) :
    decode (crlf (backslash :: rest)) = (decode (crlf (rest.drop taken))).map (meant ++ ·) := by
  have hitem' : item backslash (crlf rest) = .ok (meant, stretch rest taken) := by
    rw [item_crlf hreturn, hitem]
    rfl
  rw [crlf_cons (by decide), decode_cons hitem', drop_stretch]

/-- The first fault is the same, whatever is hidden. -/
theorem decode_crlf_of_error {fault : Fault} (hreturn : carriageReturn ∉ text)
    (h : decode text = .error fault) :
    decode (crlf text) = .error fault := by
  induction text using byItems with
  | nil =>
    rw [decode] at h
    cases h
  | fault rest other hitem =>
    have hrest : carriageReturn ∉ rest := fun hmem => hreturn (List.mem_cons_of_mem _ hmem)
    have hitem' : item backslash (crlf rest) = .error other := by
      rw [item_crlf hrest, hitem]
      rfl
    rw [decode_of_error hitem] at h
    rw [crlf_cons (by decide), decode_of_error hitem', h]
  | escape rest meant taken hitem ih =>
    have hrest : carriageReturn ∉ rest := fun hmem => hreturn (List.mem_cons_of_mem _ hmem)
    rw [decode_cons hitem] at h
    rw [decode_escape_crlf hitem hrest,
      ih (fun hmem => hrest (List.mem_of_mem_drop hmem)) (error_of_map h)]
    rfl
  | plain b rest hb ih =>
    rw [decode_plain hb] at h
    have hbehind := ih (fun hmem => hreturn (List.mem_cons_of_mem _ hmem)) (error_of_map h)
    by_cases hfeed : b = lineFeed
    · subst hfeed
      rw [crlf_lineFeed, decode_plain (by decide), decode_plain (by decide), hbehind]
      rfl
    · rw [crlf_cons hfeed, decode_plain hb, hbehind]
      rfl

/-- Text in which every line feed is hidden stands for the same. -/
theorem decode_crlf (hreturn : carriageReturn ∉ text) (h : hidesLineFeeds text = true) :
    decode (crlf text) = decode text := by
  induction text using byItems with
  | nil => rfl
  | fault rest other hitem =>
    have hfault := decode_of_error hitem
    rw [hfault, decode_crlf_of_error hreturn hfault]
  | escape rest meant taken hitem ih =>
    have hrest : carriageReturn ∉ rest := fun hmem => hreturn (List.mem_cons_of_mem _ hmem)
    have hbehind :=
      ih (fun hmem => hrest (List.mem_of_mem_drop hmem)) (hidesLineFeeds_item hitem hrest h)
    rw [decode_escape_crlf hitem hrest, hbehind, decode_cons hitem]
  | plain b rest hb ih =>
    obtain ⟨hfeed, hrest⟩ := (hidesLineFeeds_cons hb).mp h
    have hbehind := ih (fun hmem => hreturn (List.mem_cons_of_mem _ hmem)) hrest
    rw [crlf_cons hfeed, decode_plain hb, decode_plain hb, hbehind]

end Escape

end ShapeTraits
