import Forail.Base.JsonScalars

/-! What `json.dumps` writes is read back by `json.loads`, where the keys of each dictionary are distinct
and floats are read from their own texts. All that is read is such a value. -/

namespace Forail.Json

section Loads
variable (readFloat : Str → Value)

/-! ### Values that are read from their texts -/

/-- A float whose text is the text of a number or a word, and read as the float. -/
structure FloatReads (repr : {s : String // s ≠ ""}) (number : Option Number) : Prop where
  head : ∃ c s, dumpsFloat repr = c :: s ∧ (isDigit c = true ∨ c ∈ ['-', 'N', 'I'])
  reads : ∀ rest, Ends rest → (scanWord (dumpsFloat repr ++ rest)).or
    (scanNumber readFloat (dumpsFloat repr ++ rest)) = some (.float repr number, rest)

mutual
/-- The keys of the dictionaries are distinct, and floats are read from their texts. -/
def Readable : Value → Prop
  | .float repr number => FloatReads readFloat repr number
  | .list vs => ReadableList vs
  | .dict es => (es.map Prod.fst).Nodup ∧ ReadableEntries es
  | _ => True

def ReadableList : List Value → Prop
  | [] => True
  | v :: vs => Readable v ∧ ReadableList vs

def ReadableEntries : List (String × Value) → Prop
  | [] => True
  | e :: es => Readable e.2 ∧ ReadableEntries es
end

theorem scanWord_eq_none {c : Char} (s : Str) (hc : c ∉ ['n', 't', 'f', 'N', 'I', '-']) :
    scanWord (c :: s) = none := by
  simp only [List.mem_cons, List.not_mem_nil, or_false, not_or] at hc
  obtain ⟨h₁, h₂, h₃, h₄, h₅, h₆⟩ := hc
  simp [scanWord, words, List.isPrefixOf, Ne.symm h₁, Ne.symm h₂, Ne.symm h₃, Ne.symm h₄, Ne.symm h₅,
    Ne.symm h₆]

theorem scanWord_minus {c : Char} (s : Str) (hc : c ≠ 'I') : scanWord ('-' :: c :: s) = none := by
  simp [scanWord, words, List.isPrefixOf, Ne.symm hc]

theorem scanWord_int (n : ℤ) (rest : Str) : scanWord (dumps (.int n) ++ rest) = none := by
  obtain ⟨c, ds, hds, hc⟩ := toDigits_cons n.natAbs
  have hne : ∀ x, isDigit x = false → c ≠ x := by
    rintro x hx rfl
    rw [hc] at hx
    cases hx
  unfold dumps
  rw [hds]
  split_ifs
  · exact scanWord_minus _ (hne _ rfl)
  · refine scanWord_eq_none _ ?_
    simp only [List.mem_cons, List.not_mem_nil, or_false, not_or]
    exact ⟨hne _ rfl, hne _ rfl, hne _ rfl, hne _ rfl, hne _ rfl, hne _ rfl⟩

/-- How the text of a value starts. -/
def Starts (s : Str) : Prop :=
  ∃ c s', s = c :: s' ∧ isSpace c = false ∧ c ∉ [']', '\x7d', Char.ofNat 65279]

theorem starts_of_digit {c : Char} (hc : isDigit c = true ∨ c ∈ ['-', 'N', 'I']) (s : Str) :
    Starts (c :: s) := by
  refine ⟨c, s, rfl, ?_, ?_⟩
  · rcases hc with hc | hc
    · by_contra hspace
      rw [Bool.not_eq_false, isSpace] at hspace
      simp only [Bool.or_eq_true, decide_eq_true_eq] at hspace
      rcases hspace with ((rfl | rfl) | rfl) | rfl <;> cases hc
    · simp only [List.mem_cons, List.not_mem_nil, or_false] at hc
      rcases hc with rfl | rfl | rfl <;> rfl
  · intro hmem
    simp only [List.mem_cons, List.not_mem_nil, or_false] at hmem
    rcases hc with hc | hc
    · rcases hmem with rfl | rfl | rfl <;> cases hc
    · rcases hmem with rfl | rfl | rfl <;> exact absurd hc (by decide)

theorem starts_dumps {v : Value} (hv : Readable readFloat v) : Starts (dumps v) := by
  cases v with
  | null => exact ⟨'n', _, rfl, rfl, by decide⟩
  | bool b => cases b <;> exact ⟨_, _, rfl, rfl, by decide⟩
  | int n =>
    obtain ⟨c, ds, hds, hc⟩ := toDigits_cons n.natAbs
    unfold dumps
    rw [hds]
    split_ifs
    · exact ⟨'-', _, rfl, rfl, by decide⟩
    · exact starts_of_digit (.inl hc) ds
  | float repr number =>
    obtain ⟨c, s, hs, hc⟩ := FloatReads.head hv
    unfold dumps
    rw [hs]
    exact starts_of_digit hc s
  | str s => exact ⟨'"', _, rfl, rfl, by decide⟩
  | list vs => exact ⟨'[', _, rfl, rfl, by decide⟩
  | dict es => exact ⟨'\x7b', _, rfl, rfl, by decide⟩

theorem Starts.append {s : Str} (h : Starts s) (rest : Str) : Starts (s ++ rest) := by
  obtain ⟨c, s', rfl, hspace, hc⟩ := h
  exact ⟨c, s' ++ rest, rfl, hspace, hc⟩

theorem Starts.skipSpace {s : Str} (h : Starts s) : skipSpace s = s := by
  obtain ⟨c, s', rfl, hspace, -⟩ := h
  unfold Json.skipSpace
  rw [List.dropWhile_cons_of_neg (by rw [hspace]; decide)]

theorem starts_dumpsList {v : Value} (hv : Readable readFloat v) (vs : List Value) :
    Starts (dumpsList (v :: vs)) := by
  cases vs with
  | nil => exact starts_dumps readFloat hv
  | cons w ws =>
    change Starts (dumps v ++ ", ".toList ++ dumpsList (w :: ws))
    rw [List.append_assoc]
    exact (starts_dumps readFloat hv).append _

/-! ### The reader on written texts -/

/-- The last item of an array. -/
theorem scanItems_last {fuel : ℕ} {vs : List Value} {v : Value} {s rest : Str}
    (h : scanOnce readFloat fuel s = some (v, ']' :: rest)) :
    scanItems readFloat (fuel + 1) vs s = some (vs ++ [v], rest) := by
  rw [scanItems, h]
  rfl

/-- One more item of an array. -/
theorem scanItems_more {fuel : ℕ} {vs : List Value} {v : Value} {s rest : Str}
    (h : scanOnce readFloat fuel s = some (v, ',' :: rest)) :
    scanItems readFloat (fuel + 1) vs s = scanItems readFloat fuel (vs ++ [v]) (Json.skipSpace rest) := by
  rw [scanItems, h]
  rfl

/-- The text of an entry up to its value. -/
theorem entry_text (key : String) (s : Str) :
    dumpsString key ++ ": ".toList ++ s =
      '"' :: (key.toList.flatMap escape ++ '"' :: ':' :: ' ' :: s) := by
  simp [dumpsString]

/-- The last entry of an object. -/
theorem scanEntries_last {fuel : ℕ} {es : List (String × Value)} {key : String} {v : Value}
    {s rest : Str} (h : scanOnce readFloat fuel s = some (v, '\x7d' :: rest)) (hs : Starts s) :
    scanEntries readFloat (fuel + 1) es (dumpsString key ++ ": ".toList ++ s) =
      some (Dict.setEntries key v es, rest) := by
  rw [entry_text, scanEntries]
  simp only [scanString_dumpsString]
  have hspace : Json.skipSpace (' ' :: s) = s := hs.skipSpace
  have hcolon : Json.skipSpace (':' :: ' ' :: s) = ':' :: ' ' :: s := rfl
  simp only [hcolon, hspace, h]
  rfl

/-- One more entry of an object. -/
theorem scanEntries_more {fuel : ℕ} {es : List (String × Value)} {key : String} {v : Value}
    {s rest : Str} (h : scanOnce readFloat fuel s = some (v, ',' :: rest)) (hs : Starts s) :
    scanEntries readFloat (fuel + 1) es (dumpsString key ++ ": ".toList ++ s) =
      scanEntries readFloat fuel (Dict.setEntries key v es) (Json.skipSpace rest) := by
  rw [entry_text, scanEntries]
  simp only [scanString_dumpsString]
  have hspace : Json.skipSpace (' ' :: s) = s := hs.skipSpace
  have hcolon : Json.skipSpace (':' :: ' ' :: s) = ':' :: ' ' :: s := rfl
  simp only [hcolon, hspace, h]
  rfl

theorem skipSpace_comma {s : Str} (hs : Starts s) : Json.skipSpace (' ' :: s) = s := hs.skipSpace

theorem starts_dumpsEntries (e : String × Value) (es : List (String × Value)) :
    Starts (dumpsEntries (e :: es)) := by
  obtain ⟨key, v⟩ := e
  cases es with
  | nil => exact ⟨'"', _, rfl, rfl, by decide⟩
  | cons e' es => exact ⟨'"', _, rfl, rfl, by decide⟩

theorem scanOnce_string (fuel : ℕ) (s : String) (rest : Str) :
    scanOnce readFloat (fuel + 1) (dumpsString s ++ rest) = some (.str s, rest) := by
  have htext : dumpsString s ++ rest = '"' :: (s.toList.flatMap escape ++ '"' :: rest) := by
    simp [dumpsString]
  rw [htext, scanOnce, if_pos rfl, scanString_dumpsString]
  rfl

/-- A text that starts with no quote and no bracket is a word or a number. -/
theorem scanOnce_other (fuel : ℕ) {c : Char} (s : Str) (hc : c ∉ ['"', '[', '\x7b']) :
    scanOnce readFloat (fuel + 1) (c :: s) = (scanWord (c :: s)).or (scanNumber readFloat (c :: s)) := by
  simp only [List.mem_cons, List.not_mem_nil, or_false, not_or] at hc
  rw [scanOnce, if_neg hc.1, if_neg hc.2.2, if_neg hc.2.1]

theorem not_opening_of_digit {c : Char} (hc : isDigit c = true ∨ c ∈ ['-', 'N', 'I']) :
    c ∉ ['"', '[', '\x7b'] := by
  intro hmem
  simp only [List.mem_cons, List.not_mem_nil, or_false] at hmem
  rcases hc with hc | hc
  · rcases hmem with rfl | rfl | rfl <;> cases hc
  · rcases hmem with rfl | rfl | rfl <;> exact absurd hc (by decide)

theorem scanOnce_int (fuel : ℕ) (n : ℤ) {rest : Str} (h : Ends rest) :
    scanOnce readFloat (fuel + 1) (dumps (.int n) ++ rest) = some (.int n, rest) := by
  have hword := scanWord_int n rest
  have hnumber := scanNumber_int readFloat n h
  obtain ⟨c, s, hs, hc⟩ : ∃ c s, dumps (.int n) ++ rest = c :: s ∧
      (isDigit c = true ∨ c ∈ ['-', 'N', 'I']) := by
    obtain ⟨c, ds, hds, hc⟩ := toDigits_cons n.natAbs
    unfold dumps
    rw [hds]
    split_ifs
    · exact ⟨'-', _, rfl, .inr (by decide)⟩
    · exact ⟨c, _, rfl, .inl hc⟩
  rw [hs] at hword hnumber ⊢
  rw [scanOnce_other readFloat fuel s (not_opening_of_digit hc), hword, hnumber]
  rfl

theorem scanOnce_float (fuel : ℕ) {repr : {s : String // s ≠ ""}} {number : Option Number}
    (hfloat : FloatReads readFloat repr number) {rest : Str} (h : Ends rest) :
    scanOnce readFloat (fuel + 1) (dumps (.float repr number) ++ rest) =
      some (.float repr number, rest) := by
  have hreads := hfloat.reads rest h
  obtain ⟨c, s, hs, hc⟩ := hfloat.head
  unfold dumps
  rw [hs, List.cons_append] at hreads ⊢
  rw [scanOnce_other readFloat fuel _ (not_opening_of_digit hc), hreads]

theorem Starts.not_closing {s : Str} (h : Starts s) (rest : Str) : s ≠ ']' :: rest ∧ s ≠ '\x7d' :: rest := by
  obtain ⟨c, s', rfl, -, hc⟩ := h
  simp only [List.mem_cons, List.not_mem_nil, or_false, not_or] at hc
  exact ⟨fun heq => hc.1 (List.cons.inj heq).1, fun heq => hc.2.1 (List.cons.inj heq).1⟩

theorem Starts.ne_nil {s : Str} (h : Starts s) : s ≠ [] := by
  obtain ⟨c, s', rfl, -⟩ := h
  exact nofun

/-- An array with items. -/
theorem scanOnce_list {fuel : ℕ} {s rest : Str} {vs : List Value} (hs : Starts s)
    (h : scanItems readFloat fuel [] s = some (vs, rest)) :
    scanOnce readFloat (fuel + 1) ('[' :: s) = some (.list vs, rest) := by
  rw [scanOnce, if_neg (by decide), if_neg (by decide), if_pos rfl, hs.skipSpace]
  split
  · exact absurd rfl (hs.not_closing _).1
  · rw [h]
    rfl

/-- An object with entries. -/
theorem scanOnce_dict {fuel : ℕ} {s rest : Str} {es : List (String × Value)} (hs : Starts s)
    (h : scanEntries readFloat fuel [] s = some (es, rest)) :
    scanOnce readFloat (fuel + 1) ('\x7b' :: s) = some (.dict es, rest) := by
  rw [scanOnce, if_neg (by decide), if_pos rfl, hs.skipSpace]
  split
  · exact absurd rfl (hs.not_closing _).2
  · rw [h]
    rfl

mutual
/-- The text of a value is read as the value. -/
theorem scanOnce_dumps : ∀ (v : Value) {fuel : ℕ} {rest : Str}, Readable readFloat v → Ends rest →
    2 * (dumps v).length ≤ fuel → scanOnce readFloat fuel (dumps v ++ rest) = some (v, rest)
  | v, 0, _, hv, _, hfuel => by
    have hne := (starts_dumps readFloat hv).ne_nil
    have := List.length_pos_iff.mpr hne
    omega
  | .null, fuel + 1, rest, _, _, _ => rfl
  | .bool true, fuel + 1, rest, _, _, _ => rfl
  | .bool false, fuel + 1, rest, _, _, _ => rfl
  | .int n, fuel + 1, rest, _, hrest, _ => scanOnce_int readFloat fuel n hrest
  | .float repr number, fuel + 1, rest, hv, hrest, _ => scanOnce_float readFloat fuel hv hrest
  | .str s, fuel + 1, rest, _, _, _ => scanOnce_string readFloat fuel s rest
  | .list [], fuel + 1, rest, _, _, _ => rfl
  | .dict [], fuel + 1, rest, _, _, _ => rfl
  | .list (v :: vs), fuel + 1, rest, hv, _, hfuel => by
    have htext : dumps (.list (v :: vs)) ++ rest = '[' :: (dumpsList (v :: vs) ++ ']' :: rest) := by
      simp [dumps]
    have hlen : (dumps (.list (v :: vs))).length = (dumpsList (v :: vs)).length + 2 := by
      simp [dumps]
    rw [htext]
    refine scanOnce_list readFloat ((starts_dumpsList readFloat hv.1 vs).append _) ?_
    exact scanItems_dumps v vs [] hv (by omega)
  | .dict (e :: es), fuel + 1, rest, hv, _, hfuel => by
    have htext : dumps (.dict (e :: es)) ++ rest =
        '\x7b' :: (dumpsEntries (e :: es) ++ '\x7d' :: rest) := by
      simp [dumps]
    have hlen : (dumps (.dict (e :: es))).length = (dumpsEntries (e :: es)).length + 2 := by
      simp [dumps]
    rw [htext]
    refine scanOnce_dict readFloat ((starts_dumpsEntries e es).append _) ?_
    exact scanEntries_dumps e es [] hv.2 hv.1 (by omega)

theorem scanItems_dumps : ∀ (v : Value) (vs : List Value) (read : List Value) {fuel : ℕ} {rest : Str},
    ReadableList readFloat (v :: vs) → 2 * (dumpsList (v :: vs)).length + 1 ≤ fuel →
    scanItems readFloat fuel read (dumpsList (v :: vs) ++ ']' :: rest) = some (read ++ v :: vs, rest)
  | v, [], read, fuel + 1, rest, hvs, hfuel => by
    have hlen : 2 * (dumps v).length ≤ fuel := by
      change 2 * (dumps v).length + 1 ≤ fuel + 1 at hfuel
      omega
    exact scanItems_last readFloat (scanOnce_dumps v hvs.1 (ends_cons (by decide) rest) hlen)
  | v, w :: ws, read, fuel + 1, rest, hvs, hfuel => by
    have htext : dumpsList (v :: w :: ws) = dumps v ++ ", ".toList ++ dumpsList (w :: ws) := rfl
    have hlen : (dumpsList (v :: w :: ws)).length =
        (dumps v).length + 2 + (dumpsList (w :: ws)).length := by
      rw [htext, List.length_append, List.length_append]
      rfl
    have hstarts := (starts_dumpsList readFloat hvs.2.1 ws).append (']' :: rest)
    have hv : scanOnce readFloat fuel (dumps v ++ ',' :: ' ' :: (dumpsList (w :: ws) ++ ']' :: rest)) =
        some (v, ',' :: ' ' :: (dumpsList (w :: ws) ++ ']' :: rest)) :=
      scanOnce_dumps v hvs.1 (ends_cons (by decide) _) (by omega)
    have happend : dumpsList (v :: w :: ws) ++ ']' :: rest =
        dumps v ++ ',' :: ' ' :: (dumpsList (w :: ws) ++ ']' :: rest) := by
      simp [htext]
    rw [happend, scanItems_more readFloat hv, skipSpace_comma hstarts,
      scanItems_dumps w ws (read ++ [v]) hvs.2 (by omega), List.append_assoc, List.singleton_append]

theorem scanEntries_dumps : ∀ (e : String × Value) (es read : List (String × Value)) {fuel : ℕ}
    {rest : Str}, ReadableEntries readFloat (e :: es) → ((read ++ e :: es).map Prod.fst).Nodup →
    2 * (dumpsEntries (e :: es)).length + 1 ≤ fuel →
    scanEntries readFloat fuel read (dumpsEntries (e :: es) ++ '\x7d' :: rest) =
      some (read ++ e :: es, rest)
  | (key, v), [], read, fuel + 1, rest, hes, hnodup, hfuel => by
    have htext : dumpsEntries [(key, v)] = dumpsString key ++ ": ".toList ++ dumps v := rfl
    have hlen : 2 * (dumps v).length ≤ fuel := by
      rw [htext, List.length_append] at hfuel
      omega
    have hfresh : key ∉ read.map Prod.fst := by
      rw [List.map_append, List.nodup_append] at hnodup
      exact fun hmem => hnodup.2.2 key hmem key List.mem_cons_self rfl
    have hv : scanOnce readFloat fuel (dumps v ++ '\x7d' :: rest) = some (v, '\x7d' :: rest) :=
      scanOnce_dumps v hes.1 (ends_cons (by decide) rest) hlen
    have hstarts := (starts_dumps readFloat hes.1).append ('\x7d' :: rest)
    rw [htext, List.append_assoc, scanEntries_last readFloat hv hstarts,
      Dict.setEntries_of_not_mem hfresh]
  | (key, v), e' :: es, read, fuel + 1, rest, hes, hnodup, hfuel => by
    have htext : dumpsEntries ((key, v) :: e' :: es) =
        dumpsString key ++ ": ".toList ++ dumps v ++ ", ".toList ++ dumpsEntries (e' :: es) := rfl
    have hlen : (dumps v).length + 2 + (dumpsEntries (e' :: es)).length ≤
        (dumpsEntries ((key, v) :: e' :: es)).length := by
      simp only [htext, List.length_append]
      have : (", ".toList : Str).length = 2 := rfl
      omega
    have hfresh : key ∉ read.map Prod.fst := by
      rw [List.map_append, List.nodup_append] at hnodup
      exact fun hmem => hnodup.2.2 key hmem key List.mem_cons_self rfl
    have hv : scanOnce readFloat fuel
        (dumps v ++ ',' :: ' ' :: (dumpsEntries (e' :: es) ++ '\x7d' :: rest)) =
        some (v, ',' :: ' ' :: (dumpsEntries (e' :: es) ++ '\x7d' :: rest)) :=
      scanOnce_dumps v hes.1 (ends_cons (by decide) _) (by omega)
    have hstarts := (starts_dumps readFloat hes.1).append
      (',' :: ' ' :: (dumpsEntries (e' :: es) ++ '\x7d' :: rest))
    have happend : dumpsEntries ((key, v) :: e' :: es) ++ '\x7d' :: rest =
        dumpsString key ++ ": ".toList ++
          (dumps v ++ ',' :: ' ' :: (dumpsEntries (e' :: es) ++ '\x7d' :: rest)) := by
      simp [htext]
    have hnodup' : (((read ++ [(key, v)]) ++ e' :: es).map Prod.fst).Nodup := by
      rw [List.append_assoc]
      exact hnodup
    rw [happend, scanEntries_more readFloat hv hstarts, Dict.setEntries_of_not_mem hfresh,
      skipSpace_comma ((starts_dumpsEntries e' es).append _),
      scanEntries_dumps e' es (read ++ [(key, v)]) hes.2 hnodup' (by omega), List.append_assoc,
      List.singleton_append]
end

/-- `json.loads` of what `json.dumps` writes. -/
theorem loads_dumps {v : Value} (hv : Readable readFloat v) : loads readFloat (dumps v) = some v := by
  have hstarts := starts_dumps readFloat hv
  have hscan : scanOnce readFloat (2 * (dumps v).length + 1) (dumps v ++ []) = some (v, []) :=
    scanOnce_dumps readFloat v hv ends_nil (by omega)
  rw [List.append_nil] at hscan
  have hbom : (dumps v).head? ≠ some (Char.ofNat 65279) := by
    obtain ⟨c, s, hs, -, hc⟩ := hstarts
    rw [hs]
    intro heq
    exact hc (by rw [Option.some.inj heq]; decide)
  unfold loads
  rw [if_neg hbom, hstarts.skipSpace, hscan]
  rfl

/-! ### What is read -/

/-- Numbers that are read are read again from their texts, as `float` does with what `repr` writes. -/
def Rereads : Prop := ∀ s v rest, scanNumber readFloat s = some (v, rest) → Readable readFloat v

theorem readableList_append {vs ws : List Value} (hvs : ReadableList readFloat vs)
    (hws : ReadableList readFloat ws) : ReadableList readFloat (vs ++ ws) := by
  induction vs with
  | nil => exact hws
  | cons v vs ih => exact ⟨hvs.1, ih hvs.2⟩

theorem readableEntries_iff {es : List (String × Value)} :
    ReadableEntries readFloat es ↔ ∀ e ∈ es, Readable readFloat e.2 := by
  induction es with
  | nil => exact ⟨fun _ => nofun, fun _ => trivial⟩
  | cons e es ih => rw [List.forall_mem_cons, ← ih, ReadableEntries]

/-- A dictionary stays readable when a readable value is stored. -/
theorem Readable.set {es : List (String × Value)} (hes : Readable readFloat (.dict es)) (key : String)
    {v : Value} (hv : Readable readFloat v) : Readable readFloat (.dict (Dict.setEntries key v es)) := by
  refine ⟨(Dict.set ⟨es, hes.1⟩ key v).nodup, (readableEntries_iff readFloat).mpr fun e he => ?_⟩
  rcases Dict.mem_setEntries he with rfl | he
  · exact hv
  · exact (readableEntries_iff readFloat).mp hes.2 e he

theorem readable_of_scanWord {s rest : Str} {v : Value} (h : scanWord s = some (v, rest)) :
    Readable readFloat v := by
  obtain ⟨w, hw, heq⟩ := Option.map_eq_some_iff.mp h
  have hmem := List.mem_of_find?_eq_some hw
  rw [← (Prod.mk.inj heq).1]
  simp only [words, List.mem_cons, List.not_mem_nil, or_false] at hmem
  rcases hmem with rfl | rfl | rfl | rfl | rfl | rfl
  · trivial
  · trivial
  · trivial
  · exact ⟨⟨'N', _, rfl, .inr (by decide)⟩, fun rest _ => rfl⟩
  · exact ⟨⟨'I', _, rfl, .inr (by decide)⟩, fun rest _ => rfl⟩
  · exact ⟨⟨'-', _, rfl, .inr (by decide)⟩, fun rest _ => rfl⟩

theorem scan_readable (hfloat : Rereads readFloat) (fuel : ℕ) :
    (∀ {s rest : Str} {v : Value}, scanOnce readFloat fuel s = some (v, rest) → Readable readFloat v) ∧
    (∀ {s rest : Str} {es es' : List (String × Value)}, Readable readFloat (.dict es) →
      scanEntries readFloat fuel es s = some (es', rest) → Readable readFloat (.dict es')) ∧
    ∀ {s rest : Str} {vs vs' : List Value}, ReadableList readFloat vs →
      scanItems readFloat fuel vs s = some (vs', rest) → ReadableList readFloat vs' := by
  induction fuel with
  | zero => exact ⟨nofun, nofun, nofun⟩
  | succ fuel ih =>
    obtain ⟨honce, hentries, hitems⟩ := ih
    refine ⟨?_, ?_, ?_⟩
    · intro s rest v h
      cases s with
      | nil => cases h
      | cons c s =>
        rw [scanOnce] at h
        split_ifs at h with hquote hbrace hbracket
        · obtain ⟨r, -, heq⟩ := Option.map_eq_some_iff.mp h
          rw [← (Prod.mk.inj heq).1]
          trivial
        · split at h
          · cases h
            exact ⟨List.nodup_nil, trivial⟩
          · obtain ⟨r, hr, heq⟩ := Option.map_eq_some_iff.mp h
            rw [← (Prod.mk.inj heq).1]
            have hread : Readable readFloat (.dict []) := ⟨List.nodup_nil, trivial⟩
            exact hentries hread hr
        · split at h
          · cases h
            trivial
          · obtain ⟨r, hr, heq⟩ := Option.map_eq_some_iff.mp h
            rw [← (Prod.mk.inj heq).1]
            have hread : ReadableList readFloat [] := trivial
            exact hitems hread hr
        · rcases Option.or_eq_some_iff.mp h with hword | ⟨-, hnumber⟩
          · exact readable_of_scanWord readFloat hword
          · exact hfloat _ _ _ hnumber
    · intro s rest es es' hes h
      rw [scanEntries.eq_def] at h
      dsimp only at h
      split at h
      case h_2 => cases h
      case h_1 =>
        split at h
        case h_1 => cases h
        case h_2 key s hkey =>
          split at h
          case h_2 => cases h
          case h_1 =>
            split at h
            case h_1 => cases h
            case h_2 v s hv =>
              have hset := hes.set readFloat key (honce hv)
              split at h
              · cases h
                exact hset
              · exact hentries hset h
              · cases h
    · intro s rest vs vs' hvs h
      rw [scanItems] at h
      split at h
      case h_1 => cases h
      case h_2 v s hv =>
        have happend : ReadableList readFloat (vs ++ [v]) :=
          readableList_append readFloat hvs ⟨honce hv, trivial⟩
        split at h
        · cases h
          exact happend
        · exact hitems happend h
        · cases h

/-- What `json.loads` reads can be written and read again. -/
theorem readable_of_loads (hfloat : Rereads readFloat) {s : Str} {v : Value}
    (h : loads readFloat s = some v) : Readable readFloat v := by
  unfold loads at h
  split_ifs at h
  split at h
  · rename_i w rest hw
    split_ifs at h
    cases h
    exact (scan_readable readFloat hfloat _).1 hw
  · cases h

/-! ### Keys in texts -/

theorem dumpsEntries_within (es : List (String × Value)) : dumpsEntries es <:+: dumps (.dict es) :=
  ⟨['\x7b'], ['\x7d'], by simp [dumps]⟩

/-- The text of a key is part of the text of its entries. -/
theorem dumpsString_within {es : List (String × Value)} {key : String} {v : Value}
    (he : (key, v) ∈ es) : dumpsString key <:+: dumpsEntries es := by
  induction es with
  | nil => cases he
  | cons e' es ih =>
    obtain ⟨key', v'⟩ := e'
    rcases List.mem_cons.mp he with heq | he
    · cases heq
      have hprefix : dumpsString key <+: dumpsEntries ((key, v) :: es) := by
        cases es with
        | nil => exact ⟨": ".toList ++ dumps v, (List.append_assoc _ _ _).symm⟩
        | cons e'' es =>
          refine ⟨": ".toList ++ dumps v ++ ", ".toList ++ dumpsEntries (e'' :: es), ?_⟩
          simp [dumpsEntries]
      exact hprefix.isInfix
    · cases es with
      | nil => cases he
      | cons e'' es =>
        refine (ih he).trans (List.IsSuffix.isInfix ?_)
        exact ⟨dumpsString key' ++ ": ".toList ++ dumps v' ++ ", ".toList, rfl⟩

end Loads

end Forail.Json
