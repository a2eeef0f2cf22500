import Forail.Ui.QueryValues

/-! Encoded queries. The text of an object is read back as the texts of its values, key by key in the order of the
keys; so what a namespace has at a key is merged from the texts at the full key. -/

namespace Forail.QueryStrings

open UriComponent

variable {β : Type}

/-! ### Splitting -/

theorem splitOn_joinWith (separator : Char) {parts : List Str} (h : parts ≠ []) :
    (joinWith separator parts).splitOn separator = parts.flatMap fun part => part.splitOn separator := by
  rw [joinWith]
  induction parts with
  | nil => exact absurd rfl h
  | cons part parts ih =>
    cases parts with
    | nil => simp
    | cons next parts =>
      have ih := ih (List.cons_ne_nil next parts)
      rw [List.flatMap_cons, ← ih, ← List.splitOn_append_cons_self]
      rfl

theorem not_mem_encode {s : Str} {c : Char} (hc : isEncoded c = false) : c ∉ encodeURIComponent s := by
  intro hmem
  rw [isEncoded_of_mem hmem] at hc
  cases hc

theorem splitOn_encodePair (key value : Str) :
    (encodePair key value).splitOn '=' = [encodeURIComponent key, encodeURIComponent value] := by
  rw [encodePair, List.splitOn_append_cons_self_of_not_mem (not_mem_encode (by decide)),
    List.splitOn_eq_singleton (not_mem_encode (by decide))]

theorem not_mem_encodePair {c : Char} (hc : isEncoded c = false) (hne : c ≠ '=') (key value : Str) :
    c ∉ encodePair key value := by
  rw [encodePair, List.mem_append, List.mem_cons]
  rintro (hmem | heq | hmem)
  · exact not_mem_encode hc hmem
  · exact hne heq
  · exact not_mem_encode hc hmem

/-! ### Texts of values -/

variable (platform : Platform β)

def textsOf : Val β → List Str
  | .many _ items => items.map platform.itemText
  | .null => []
  | v => [platform.valueText v]

/-- The texts that an object has at a key. -/
def textsAt (params : Dict Str (Val β)) (key : Str) : List Str := (params.get? key).elim [] (textsOf platform)

/-- The texts of an object, in the order in which they are written. -/
def groups (params : Dict Str (Val β)) : List (Str × List Str) :=
  (sortKeys params.keys).map fun key => (key, textsAt platform params key)

/-- The pairs of a query. -/
def pairs (params : Dict Str (Val β)) : List (Str × Str) :=
  (groups platform params).flatMap fun g => g.2.map fun text => (g.1, text)

/-- The key and the value of a part of a query. -/
def splitPart (s : Str) : Str × Option Str :=
  match s.splitOn '=' with
  | key :: value :: _ => (key, some value)
  | [key] => (key, none)
  | [] => ([], none)

/-- The keys and values of a text, still encoded, without those of the empty key. -/
def encodedPairs (queryString : Str) : List (Str × Option Str) := (splitQuery queryString).filter fun e => e.1 ≠ []

def encodePairs (ps : List (Str × Str)) : List (Str × Option Str) :=
  (ps.filter fun e => e.1 ≠ []).map fun e => (encodeURIComponent e.1, some (encodeURIComponent e.2))

theorem encodePairs_append (ps qs : List (Str × Str)) :
    encodePairs (ps ++ qs) = encodePairs ps ++ encodePairs qs := by
  rw [encodePairs, List.filter_append, List.map_append]
  rfl

theorem mem_joinWith {separator c : Char} {parts : List Str} (h : c ∈ joinWith separator parts) :
    c = separator ∨ ∃ part ∈ parts, c ∈ part := by
  rw [joinWith] at h
  induction parts with
  | nil => cases h
  | cons part parts ih =>
    cases parts with
    | nil => exact .inr ⟨part, List.mem_cons_self, by simpa using h⟩
    | cons next parts =>
      rw [List.intercalate_cons_cons, List.mem_append, List.mem_append, List.mem_singleton] at h
      obtain (h | h) | h := h
      · exact .inr ⟨part, List.mem_cons_self, h⟩
      · exact .inl h
      · obtain heq | ⟨p, hp, hc⟩ := ih h
        · exact .inl heq
        · exact .inr ⟨p, List.mem_cons_of_mem part hp, hc⟩

theorem filter_splitPart_encodePair (key value : Str) :
    ([encodePair key value].map splitPart).filter (fun e => e.1 ≠ []) = encodePairs [(key, value)] := by
  have hpart : splitPart (encodePair key value) = (encodeURIComponent key, some (encodeURIComponent value)) := by
    rw [splitPart, splitOn_encodePair]
  rw [List.map_singleton, hpart, encodePairs]
  by_cases hkey : key = []
  · simp [hkey, encode_eq_nil]
  · simp [hkey, encode_eq_nil]

theorem filter_splitPart_encodePairs (key : Str) (texts : List Str) :
    ((texts.map (encodePair key)).map splitPart).filter (fun e => e.1 ≠ []) =
      encodePairs (texts.map fun text => (key, text)) := by
  induction texts with
  | nil => rfl
  | cons text texts ih =>
    have hone := filter_splitPart_encodePair key text
    rw [← List.singleton_append, List.map_append, List.map_append, List.filter_append, List.map_append,
      encodePairs_append, ih]
    exact congrArg (· ++ _) hone

theorem filter_splitPart_encodeValue (key : Str) {v : Val β} (hv : ¬isNull v = true) :
    (((encodeValue platform key v).splitOn '&').map splitPart).filter (fun e => e.1 ≠ []) =
      encodePairs ((textsOf platform v).map fun text => (key, text)) := by
  have hsingle : ∀ text, (((encodePair key text).splitOn '&').map splitPart).filter (fun e => e.1 ≠ []) =
      encodePairs ([text].map fun text => (key, text)) := by
    intro text
    rw [List.splitOn_eq_singleton (not_mem_encodePair (by decide) (by decide) key text)]
    exact filter_splitPart_encodePair key text
  cases v with
  | null => exact absurd rfl hv
  | undefined => exact hsingle _
  | nan => exact hsingle _
  | one i => exact hsingle _
  | many address items =>
    cases items with
    | nil => rfl
    | cons i items =>
      have hparts : (encodeValue platform key (.many address (i :: items))).splitOn '&' =
          (textsOf platform (.many address (i :: items))).map (encodePair key) := by
        rw [encodeValue, joinWith, List.splitOn_intercalate]
        · rw [textsOf, List.map_map]
          rfl
        · intro part hpart
          obtain ⟨j, -, rfl⟩ := List.mem_map.mp hpart
          exact not_mem_encodePair (by decide) (by decide) key _
        · exact List.cons_ne_nil _ _
      rw [hparts]
      exact filter_splitPart_encodePairs key _

/-- The values of an object that are written. -/
def written (params : Dict Str (Val β)) : List (Str × Val β) :=
  ((sortKeys params.keys).filterMap fun key => (params.get? key).map fun value => (key, value)).filter
    fun e => ¬isNull e.2

theorem pairs_eq (params : Dict Str (Val β)) :
    pairs platform params = (written params).flatMap fun e => (textsOf platform e.2).map fun text => (e.1, text) := by
  rw [pairs, groups, written]
  induction sortKeys params.keys with
  | nil => rfl
  | cons key keys ih =>
    rw [List.map_cons, List.flatMap_cons, ih, List.filterMap_cons, textsAt]
    cases params.get? key with
    | none => rfl
    | some v =>
      by_cases hv : isNull v = true
      · have htexts : textsOf platform v = [] := by
          cases v with
          | null => rfl
          | _ => cases hv
        simp [hv, htexts]
      · simp [hv]

theorem not_mem_encodeQueryString (params : Dict Str (Val β)) : '?' ∉ encodeQueryString platform params := by
  have hpair : ∀ key text, '?' ∉ encodePair key text := not_mem_encodePair (by decide) (by decide)
  intro h
  obtain heq | ⟨part, hpart, hmem⟩ := mem_joinWith h
  · exact absurd heq (by decide)
  · obtain ⟨e, -, rfl⟩ := List.mem_map.mp hpart
    cases hv : e.2 with
    | many address items =>
      rw [hv, encodeValue] at hmem
      obtain heq | ⟨part, hpart, hmem⟩ := mem_joinWith hmem
      · exact absurd heq (by decide)
      · obtain ⟨i, -, rfl⟩ := List.mem_map.mp hpart
        exact hpair _ _ hmem
    | _ =>
      rw [hv] at hmem
      exact hpair _ _ hmem

theorem splitQuery_of_not_mem {queryString : Str} (h : '?' ∉ queryString) :
    splitQuery queryString = (queryString.splitOn '&').map splitPart := by
  unfold splitQuery
  split
  · next qs => exact absurd List.mem_cons_self h
  · rfl

theorem encodedPairs_encode (params : Dict Str (Val β)) :
    encodedPairs (encodeQueryString platform params) = encodePairs (pairs platform params) := by
  rw [encodedPairs, splitQuery_of_not_mem (not_mem_encodeQueryString platform params), pairs_eq]
  by_cases hnil : written params = []
  · have hempty : encodeQueryString platform params = [] := by
      show joinWith '&' ((written params).map _) = []
      rw [hnil]
      rfl
    rw [hempty, hnil]
    rfl
  · have hsplit : (encodeQueryString platform params).splitOn '&' =
        ((written params).map fun e => encodeValue platform e.1 e.2).flatMap fun part => part.splitOn '&' :=
      splitOn_joinWith '&' fun h => hnil (List.map_eq_nil_iff.mp h)
    rw [hsplit]
    have hvalues : ∀ e ∈ written params, ¬isNull e.2 = true := fun e he => by
      simpa using (List.mem_filter.mp he).2
    generalize written params = l at hvalues
    clear hsplit hnil
    induction l with
    | nil => rfl
    | cons e l ih =>
      rw [List.map_cons, List.flatMap_cons, List.map_append, List.filter_append,
        ih fun e' he' => hvalues e' (List.mem_cons_of_mem e he'), List.flatMap_cons, encodePairs_append,
        filter_splitPart_encodeValue platform e.1 (hvalues e List.mem_cons_self)]

/-! ### Reading pairs -/

variable [DecidableEq β]

/-- A text is merged into an object. -/
def mergeAt (read : Str → Str → Val β) (o : Obj β) (e : Str × Str) : Obj β :=
  o.assign e.1 (mergeParam (o.lookup platform e.1) (read e.1 e.2))

/-- What is read of a text at a key. -/
def readText (config : QSConfig β) (key text : Str) : Val β :=
  if key ∈ config.integerFields then platform.parseInt (encodeURIComponent text) else .one (.str text)

/-- The key in a namespace. -/
def stripNamespace (ns : Str) (e : Str × Str) : Option (Str × Str) :=
  if (ns ++ ['.']) <+: e.1 then some (e.1.drop (ns.length + 1), e.2) else none

def IsWord (ns : Str) : Prop := ns ≠ [] ∧ ∀ c ∈ ns, c.isAlphanum = true ∨ c = '_'

theorem isUnreserved_of_word {ns : Str} (h : IsWord ns) : ∀ c ∈ ns ++ ['.'], isUnreserved c = true := by
  intro c hc
  obtain hc | hc := List.mem_append.mp hc
  · obtain hc | rfl := h.2 c hc
    · change (decide (c.val ≥ 'A'.val ∧ c.val ≤ 'Z'.val) || (decide (c.val ≥ 'a'.val) && decide (c.val ≤ 'z'.val)) ||
        (decide (c.val ≥ '0'.val) && decide (c.val ≤ '9'.val))) = true at hc
      simp only [Bool.or_eq_true, Bool.and_eq_true, decide_eq_true_eq] at hc
      simp only [isUnreserved, decide_eq_true_eq, Char.le_def]
      tauto
    · decide
  · obtain rfl := List.mem_singleton.mp hc
    decide

theorem foldlM_encodedPairs {σ : Type} (f : σ → Str × Option Str → Option σ)
    (hskip : ∀ s e, e.1 = [] → f s e = some s) (queryString : Str) (s : σ) :
    (splitQuery queryString).foldlM f s = (encodedPairs queryString).foldlM f s := by
  rw [encodedPairs]
  induction splitQuery queryString generalizing s with
  | nil => rfl
  | cons e l ih =>
    by_cases he : e.1 = []
    · rw [List.foldlM_cons, hskip s e he, List.filter_cons_of_neg (by simpa using he)]
      exact ih s
    · rw [List.filter_cons_of_pos (by simpa using he), List.foldlM_cons, List.foldlM_cons]
      exact congrArg _ (funext ih)

theorem parseFullQueryString_encode (params : Dict Str (Val β)) :
    parseFullQueryString platform (encodeQueryString platform params) =
      some (((pairs platform params).filter fun e => e.1 ≠ []).foldl
        (mergeAt platform fun _ text => .one (.str text)) .empty) := by
  rw [parseFullQueryString, foldlM_encodedPairs _ (fun s e he => if_pos he), encodedPairs_encode, encodePairs]
  have hkeys : ∀ e ∈ (pairs platform params).filter fun e => e.1 ≠ [], e.1 ≠ [] := fun e he => by
    simpa using (List.mem_filter.mp he).2
  generalize (pairs platform params).filter (fun e => e.1 ≠ []) = l at hkeys
  generalize (Obj.empty : Obj β) = o
  induction l generalizing o with
  | nil => rfl
  | cons e l ih =>
    have hkey : encodeURIComponent e.1 ≠ [] := fun h => hkeys e List.mem_cons_self (encode_eq_nil.mp h)
    rw [List.map_cons, List.foldlM_cons, if_neg hkey, rawText, Option.getD_some, decode_encode, decode_encode]
    exact ih (fun e' he' => hkeys e' (List.mem_cons_of_mem e he')) _

theorem namespaceMatches_encode {ns : Str} (h : IsWord ns) (key : Str) :
    namespaceMatches ns (encodeURIComponent key) = decide ((ns ++ ['.']) <+: key) := by
  rw [namespaceMatches, if_neg h.1, decide_eq_decide]
  exact isPrefixOf_encode (isUnreserved_of_word h) key

theorem drop_encode {ns : Str} (h : IsWord ns) (key : Str) :
    (encodeURIComponent (ns ++ '.' :: key)).drop (ns.length + 1) = encodeURIComponent key := by
  have hsplit : ns ++ '.' :: key = (ns ++ ['.']) ++ key := by simp
  rw [hsplit, encode_append, encode_unreserved (isUnreserved_of_word h)]
  exact List.drop_left' (by simp)

omit [DecidableEq β] in
theorem parseValue_encode (config : QSConfig β) (key text : Str) :
    parseValue platform config key (some (encodeURIComponent text)) = some (readText platform config key text) := by
  rw [parseValue, readText, rawText, Option.getD_some]
  split_ifs
  · rfl
  · rw [decode_encode]
    rfl

theorem stringToObject_encode {config : QSConfig β} (h : IsWord config.namespace) (params : Dict Str (Val β)) :
    stringToObject platform config (encodeQueryString platform params) =
      some (((pairs platform params).filterMap (stripNamespace config.namespace)).foldl
        (mergeAt platform (readText platform config)) .empty) := by
  rw [stringToObject, foldlM_encodedPairs _ (fun s e he => if_pos (.inl he)), encodedPairs_encode, encodePairs]
  generalize pairs platform params = l
  generalize (Obj.empty : Obj β) = o
  induction l generalizing o with
  | nil => rfl
  | cons e l ih =>
    obtain ⟨key, text⟩ := e
    by_cases hkey : key = []
    · have hstrip : stripNamespace config.namespace (key, text) = none := by
        rw [stripNamespace, if_neg]
        rw [hkey, List.prefix_nil]
        simp
      rw [List.filter_cons_of_neg (by simpa using hkey), List.filterMap_cons, hstrip]
      exact ih o
    · have hne : encodeURIComponent key ≠ [] := fun h => hkey (encode_eq_nil.mp h)
      rw [List.filter_cons_of_pos (by simpa using hkey), List.map_cons, List.foldlM_cons]
      by_cases hmatch : (config.namespace ++ ['.']) <+: key
      · obtain ⟨k, rfl⟩ := hmatch
        have hsplit : config.namespace ++ ['.'] ++ k = config.namespace ++ '.' :: k := by simp
        have hstrip : stripNamespace config.namespace (config.namespace ++ ['.'] ++ k, text) = some (k, text) := by
          rw [stripNamespace, if_pos (List.prefix_append _ _), List.drop_left' (by simp)]
        have hno : ¬(encodeURIComponent (config.namespace ++ ['.'] ++ k) = [] ∨
            ¬namespaceMatches config.namespace (encodeURIComponent (config.namespace ++ ['.'] ++ k)) = true) := by
          rintro (hnil | hmatch)
          · exact hne hnil
          · rw [namespaceMatches_encode h, decide_eq_true_iff] at hmatch
            exact hmatch (List.prefix_append _ _)
        rw [List.filterMap_cons, hstrip, if_neg hno, if_neg h.1, hsplit, drop_encode h, decode_encode]
        simp only [Option.bind_eq_bind, Option.bind_some, parseValue_encode]
        exact ih _
      · have hstrip : stripNamespace config.namespace (key, text) = none := if_neg hmatch
        rw [List.filterMap_cons, hstrip, if_pos]
        · exact ih o
        · rw [namespaceMatches_encode h]
          simp [hmatch]

end Forail.QueryStrings
