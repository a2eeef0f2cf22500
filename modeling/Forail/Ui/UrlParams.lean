import Forail.Ui.RemovedParams
import Forail.Ui.UpdatedQueries

/-! Parameters that go through the URL. An update is read back with the new parameters applied, exactly unless a key
that it writes is inherited by the object into which the query is read, or it changes what others inherit. -/

namespace Forail.QueryStrings

open UriComponent

variable {β : Type} [DecidableEq β] {platform : Platform β} {config : QSConfig β}

/-- A value without the address of its list. -/
def Val.content : Val β → Val β
  | .many _ items => .many none items
  | v => v

/-- A string, a list of at least two distinct strings, or null. -/
def IsUpdate (v : Val β) : Prop :=
  v = .null ∨ (∃ s, v = .one (.str s)) ∨ ∃ a, ∃ ss : List Str, v = .many a (ss.map .str) ∧ ss.Nodup ∧ 2 ≤ ss.length

/-- The parameters are those from before with new ones applied, where null is the default. -/
def Applied (config : QSConfig β) (newParams before after : Dict Str (Val β)) : Prop :=
  ∀ key, (after.get? key).map Val.content =
    match newParams.get? key with
    | none => (before.get? key).map Val.content
    | some v => if isNull v then (config.defaultParams.get? key).map Val.content else some v.content

/-- The query is updated; the namespace has the new parameters applied and every other one has what it had. -/
def Survives (platform : Platform β) (config : QSConfig β) (queryString : Str) (newParams : Dict Str (Val β)) : Prop :=
  ∃ updated, updateQueryString platform config queryString newParams = some updated ∧
    (∃ before after, parseQueryString platform config queryString = some before ∧
      parseQueryString platform config updated = some after ∧ Applied config newParams before after) ∧
    ∀ other : QSConfig β, IsWord other.namespace → other.namespace ≠ config.namespace →
      ∃ before after, parseQueryString platform other queryString = some before ∧
        parseQueryString platform other updated = some after ∧ ∀ key, after.get? key = before.get? key

/-- Nothing is inherited at the keys that are written, and what is inherited at the others does not change or is
what they have first. Only a default can be at `__proto__`. -/
def UpdateSafe (platform : Platform β) (config : QSConfig β) (queryString : Str) (newParams : Dict Str (Val β)) : Prop :=
  let old := queryTexts config.namespace queryString
  let new := updatedTexts platform config newParams old
  let read := readText platform config
  (∀ key v, newParams.get? key = some v → ¬isReset platform config key v = true →
    if key = protoKey then (config.defaultParams.get? key).map Val.content = some v.content
    else inheritedOf platform read (new protoKey) key = .undefined) ∧
  ∀ key, newParams.get? key = none → key ≠ protoKey → old key ≠ [] →
    (inheritedOf platform read (old protoKey) key).items = (inheritedOf platform read (new protoKey) key).items ∨
    (inheritedOf platform read (old protoKey) key).items ++ (inheritedOf platform read (new protoKey) key).items =
      (keptAt read key (old key)).head?.toList

/-! ### Texts of a query -/

theorem filterMap_flat_key {gs : List (Str × List Str)} (h : gs.Pairwise fun g h => Before g.1 h.1) (key : Str) :
    (flat gs).filterMap (fun e => if e.1 = key then some e.2 else none) = textsOfKey gs key := by
  have hother : ∀ gs : List (Str × List Str), key ∉ gs.map Prod.fst →
      (flat gs).filterMap (fun e => if e.1 = key then some e.2 else none) = [] := by
    intro gs hgs
    rw [List.filterMap_eq_nil_iff]
    intro e he
    have hne : e.1 ≠ key := fun heq => not_mem_flat hgs (List.mem_map.mpr ⟨e, he, heq⟩)
    exact if_neg hne
  by_cases hmem : key ∈ gs.map Prod.fst
  · obtain ⟨⟨k, texts⟩, hg, rfl⟩ := List.mem_map.mp hmem
    obtain ⟨gs₁, gs₂, rfl⟩ := List.append_of_mem hg
    have hnodup := nodup_of_pairwise h
    rw [List.map_append, List.map_cons, List.nodup_append, List.nodup_cons] at hnodup
    have hfront : k ∉ gs₁.map Prod.fst := fun h => hnodup.2.2 _ h _ List.mem_cons_self rfl
    rw [textsOfKey_split hfront, flat_append, flat_cons, List.filterMap_append, List.filterMap_append, hother _ hfront,
      hother _ hnodup.2.1.1, List.filterMap_map, List.nil_append, List.append_nil]
    have hsome : (fun e : Str × Str => if e.1 = k then some e.2 else none) ∘ (fun text => (k, text)) = some :=
      funext fun text => if_pos rfl
    rw [hsome, List.filterMap_some]
  · rw [hother _ hmem, textsOfKey_of_not_mem hmem]

omit [DecidableEq β] in
theorem queryTexts_encode (ns key : Str) (params : Dict Str (Val β)) :
    queryTexts ns (encodeQueryString platform params) key = textsIn platform params ns key := by
  have hne : inNamespace ns key ≠ [] := by simp [inNamespace]
  have hpairs : (pairs platform params).filter (fun e => e.1 ≠ []) =
      flat ((groups platform params).filter fun g => g.1 ≠ []) := filter_flat _
  have hfun : (fun e : Str × Option Str =>
      if decodeURIComponent e.1 = some (inNamespace ns key) then decodeURIComponent (rawText e.2) else none) ∘
      (fun e : Str × Str => (encodeURIComponent e.1, some (encodeURIComponent e.2))) =
      fun e => if e.1 = inNamespace ns key then some e.2 else none := by
    funext e
    simp only [Function.comp_apply, rawText, Option.getD_some, decode_encode, Option.some.injEq]
  rw [queryTexts, encodedPairs_encode, encodePairs, List.filterMap_map, hfun, hpairs,
    filterMap_flat_key ((pairwise_groups params).filter _), textsOfKey_named hne]
  rfl

/-! ### Values -/

omit [DecidableEq β] in
theorem content_collapse (l : List (Item β)) : (collapse l).content = collapse l := by
  rcases l with _ | ⟨_, _ | ⟨_, _⟩⟩
  · rfl
  · rfl
  · rfl

omit [DecidableEq β] in
/-- The texts of a value that is written. -/
theorem IsUpdate.texts (platform : Platform β) {v : Val β} (h : IsUpdate v) (hnull : ¬isNull v = true) :
    (textsOf platform v).Nodup ∧ textsOf platform v ≠ [] ∧ v.content = collapse ((textsOf platform v).map .str) := by
  obtain rfl | ⟨s, rfl⟩ | ⟨a, ss, rfl, hnodup, hlength⟩ := h
  · exact absurd rfl hnull
  · exact ⟨List.pairwise_singleton _ _, List.cons_ne_nil _ _, rfl⟩
  · have htexts : textsOf platform (.many a (ss.map .str)) = ss := by
      rw [textsOf, List.map_map]
      exact List.map_id ss
    rw [htexts]
    refine ⟨hnodup, ?_, ?_⟩
    · rintro rfl
      simp at hlength
    · rcases ss with _ | ⟨_, _ | ⟨_, _⟩⟩
      · simp at hlength
      · simp at hlength
      · rfl

omit [DecidableEq β] in
theorem keptAt_of_string {key : Str} (h : key ∉ config.integerFields) (texts : List Str) :
    keptAt (readText platform config) key texts = texts.map .str := by
  have hread : (fun text => kept (readText platform config key text)) = fun text => [Item.str text] := by
    funext text
    rw [readText, if_neg h]
    rfl
  rw [keptAt, hread, List.map_eq_flatMap]

/-- Inherited values in front of others are seen unless they are the first of them. -/
theorem eraseDups_inherited {v w : Val β} (hv : IsInherited v) (hw : IsInherited w) (l : List (Item β)) :
    (v.items ++ l).eraseDups = (w.items ++ l).eraseDups ↔ v.items = w.items ∨ v.items ++ w.items = l.head?.toList := by
  have hone : ∀ (i : Item β) (l : List (Item β)), (i :: l).eraseDups = l.eraseDups ↔ l.head? = some i := by
    intro i l
    constructor
    · intro h
      cases l with
      | nil => cases h
      | cons j l =>
        rw [List.eraseDups_cons, List.eraseDups_cons] at h
        rw [(List.cons.inj h).1]
        rfl
    · intro h
      obtain ⟨l, rfl⟩ := List.head?_eq_some_iff.mp h
      have hsame := eraseDups_flatMap_eraseDups ([] : List (Item β)) (i :: i :: l) fun j => [j]
      simp [List.eraseDups_cons]
  obtain rfl | ⟨i, rfl, -, -⟩ := hv <;> obtain rfl | ⟨j, rfl, -, -⟩ := hw
  · exact iff_of_true rfl (.inl rfl)
  · simp only [Val.items, List.nil_append, List.singleton_append]
    rw [eq_comm, hone]
    cases l <;> simp [eq_comm]
  · simp only [Val.items, List.nil_append, List.singleton_append, List.append_nil]
    rw [hone]
    cases l <;> simp [eq_comm]
  · simp only [Val.items, List.singleton_append, List.cons.injEq, and_true]
    constructor
    · intro h
      rw [List.eraseDups_cons, List.eraseDups_cons] at h
      exact .inl (List.cons.inj h).1
    · rintro (rfl | h)
      · rfl
      · cases l <;> simp at h

/-- One object has one list at an address. -/
def SharedLists (config : QSConfig β) (newParams : Dict Str (Val β)) : Prop :=
  ∀ key n items items', newParams.get? key = some (.many (some n) items) →
    config.defaultParams.get? key = some (.many (some n) items') → items = items'

theorem default_of_isReset {newParams : Dict Str (Val β)} (hshared : SharedLists config newParams) {key : Str}
    {v : Val β} (hget : newParams.get? key = some v) (hv : IsUpdate v) (hnull : ¬isNull v = true)
    (hreset : isReset platform config key v = true) :
    (config.defaultParams.get? key).map Val.content = some v.content := by
  rw [isReset, decide_eq_true_eq] at hreset
  have heq := hreset.resolve_left hnull
  have hbuiltin : ∀ b, v.strictEq (.one (.builtin b)) = false := by
    intro b
    obtain rfl | ⟨s, rfl⟩ | ⟨a, ss, rfl, -, -⟩ := hv
    · rfl
    · rfl
    · cases a <;> rfl
  have hundefined : v.strictEq .undefined = false := by
    obtain rfl | ⟨s, rfl⟩ | ⟨a, ss, rfl, -, -⟩ := hv
    · rfl
    · rfl
    · cases a <;> rfl
  cases hdefault : config.defaultParams.get? key with
  | none =>
    rw [Obj.lookup, hdefault] at heq
    dsimp only at heq
    split_ifs at heq with hkey
    · rw [Obj.protoVal, hbuiltin] at heq
      cases heq
    · rw [Platform.inherited.eq_def] at heq
      dsimp only at heq
      split at heq
      · rw [hbuiltin] at heq
        cases heq
      · rw [hundefined] at heq
        cases heq
  | some w =>
    rw [Obj.lookup, hdefault] at heq
    rw [Option.map_some]
    obtain rfl | ⟨s, rfl⟩ | ⟨a, ss, rfl, -, -⟩ := hv
    · exact absurd rfl hnull
    · cases w with
      | one j =>
        obtain rfl : Item.str s = j := of_decide_eq_true heq
        rfl
      | _ => cases heq
    · cases a with
      | none => cases heq
      | some n =>
        cases w with
        | many b items =>
          cases b with
          | none => cases heq
          | some m =>
            obtain rfl : n = m := of_decide_eq_true heq
            rw [hshared key n _ items hget hdefault]
        | _ => cases heq

/-! ### Reading an update -/

theorem updatedTexts_eraseDups {newParams : Dict Str (Val β)} (hnew : ∀ key v, newParams.get? key = some v → IsUpdate v)
    (texts : Str → List Str) (key : Str) :
    updatedTexts platform config newParams (fun k => (texts k).eraseDups) key =
      (updatedTexts platform config newParams texts key).eraseDups := by
  rw [updatedTexts, updatedTexts]
  cases hget : newParams.get? key with
  | none => rfl
  | some v =>
    dsimp only
    split_ifs with hreset
    · rfl
    · have hnull : ¬isNull v = true := fun h => hreset (by simp [isReset, h])
      exact (eraseDups_of_nodup ((hnew key v hget).texts platform hnull).1).symm

/-- One key of an update. -/
theorem applied_iff (platform : Platform β) {newParams : Dict Str (Val β)} (hshared : SharedLists config newParams)
    (hnew : ∀ key v, newParams.get? key = some v → key ∉ config.integerFields ∧ IsUpdate v)
    (old : Str → List Str) (key : Str) :
    ((readAt platform (readText platform config) (updatedTexts platform config newParams old) key).or
        (config.defaultParams.get? key)).map Val.content =
      (match newParams.get? key with
      | none => ((readAt platform (readText platform config) old key).or (config.defaultParams.get? key)).map Val.content
      | some v => if isNull v then (config.defaultParams.get? key).map Val.content else some v.content) ↔
    match newParams.get? key with
    | none => key ≠ protoKey → old key ≠ [] →
      (inheritedOf platform (readText platform config) (old protoKey) key).items =
          (inheritedOf platform (readText platform config)
            (updatedTexts platform config newParams old protoKey) key).items ∨
        (inheritedOf platform (readText platform config) (old protoKey) key).items ++
          (inheritedOf platform (readText platform config)
            (updatedTexts platform config newParams old protoKey) key).items =
          (keptAt (readText platform config) key (old key)).head?.toList
    | some v => ¬isReset platform config key v = true →
      if key = protoKey then (config.defaultParams.get? key).map Val.content = some v.content
      else inheritedOf platform (readText platform config)
        (updatedTexts platform config newParams old protoKey) key = .undefined := by
  have hinherited := fun texts => isInherited_inheritedOf platform (readText platform config) texts key
  cases hget : newParams.get? key with
  | none =>
    have htexts : updatedTexts platform config newParams old key = old key := by
      rw [updatedTexts, hget]
    dsimp only
    by_cases hnone : key = protoKey ∨ old key = []
    · have hold : readAt platform (readText platform config) old key = none := if_pos hnone
      have hupdated : readAt platform (readText platform config) (updatedTexts platform config newParams old) key = none :=
        if_pos (by rwa [htexts])
      rw [hold, hupdated]
      exact iff_of_true rfl fun hkey hne => absurd hnone (not_or.mpr ⟨hkey, hne⟩)
    · rw [readAt, htexts, if_neg hnone, readAt, if_neg hnone, Option.some_or, Option.some_or, Option.map_some,
        Option.map_some, Option.some.injEq, content_collapse, content_collapse, eq_comm]
      rw [not_or] at hnone
      rw [← eraseDups_inherited (hinherited _) (hinherited _)]
      constructor
      · exact fun h _ _ => collapse_injective h
      · exact fun h => congrArg collapse (h hnone.1 hnone.2)
  | some v =>
    obtain ⟨hstring, hv⟩ := hnew key v hget
    dsimp only
    by_cases hreset : isReset platform config key v = true
    · have htexts : updatedTexts platform config newParams old key = [] := by
        rw [updatedTexts, hget]
        exact if_pos hreset
      rw [readAt, if_pos (.inr htexts), Option.none_or]
      refine iff_of_true ?_ fun h => absurd hreset h
      split_ifs with hnull
      · rfl
      · exact default_of_isReset hshared hget hv hnull hreset
    · have hnull : ¬isNull v = true := fun h => hreset (by simp [isReset, h])
      obtain ⟨hnodup, hne, hcontent⟩ := hv.texts platform hnull
      have htexts : updatedTexts platform config newParams old key = textsOf platform v := by
        rw [updatedTexts, hget]
        exact if_neg hreset
      rw [if_neg hnull, readAt, htexts]
      by_cases hkey : key = protoKey
      · rw [if_pos (.inl hkey), Option.none_or, if_pos hkey]
        exact ⟨fun h _ => h, fun h => h hreset⟩
      · rw [if_neg (not_or.mpr ⟨hkey, hne⟩), Option.some_or, Option.map_some, Option.some.injEq, content_collapse,
          if_neg hkey, hcontent, keptAt_of_string hstring]
        have hstrings : ((textsOf platform v).map (Item.str : Str → Item β)).eraseDups =
            (textsOf platform v).map Item.str := by
          rw [eraseDups_map_str, eraseDups_of_nodup hnodup]
        constructor
        · intro h _
          obtain hnone | ⟨i, hi, -, hstr⟩ := hinherited (updatedTexts platform config newParams old protoKey)
          · exact hnone
          · rw [hi] at h
            have hlist := collapse_injective h
            obtain ⟨text, texts, hcons⟩ := List.exists_cons_of_ne_nil hne
            rw [hcons, Val.items, List.singleton_append, List.eraseDups_cons, List.map_cons] at hlist
            exact absurd (List.cons.inj hlist).1 (hstr text)
        · intro h
          have hitems : (Val.undefined : Val β).items = [] := rfl
          rw [h hreset, hitems, List.nil_append, hstrings]

/-- A query that was written survives an update exactly if the update is safe. -/
theorem survives_iff (h : IsWord config.namespace) {queryString : Str}
    (hwritten : ∃ (config₀ : QSConfig β) (query₀ : Str) (params₀ : Dict Str (Val β)),
      updateQueryString platform config₀ query₀ params₀ = some queryString)
    {newParams : Dict Str (Val β)} (hshared : SharedLists config newParams)
    (hnew : ∀ key v, newParams.get? key = some v → key ∉ config.integerFields ∧ IsUpdate v) :
    Survives platform config queryString newParams ↔ UpdateSafe platform config queryString newParams := by
  obtain ⟨config₀, query₀, params₀, hsome⟩ := hwritten
  obtain ⟨params, rfl⟩ : ∃ params : Dict Str (Val β), queryString = encodeQueryString platform params := by
    rw [updateQueryString] at hsome
    cases hfull : parseFullQueryString platform query₀ with
    | none =>
      rw [hfull] at hsome
      cases hsome
    | some o =>
      rw [hfull] at hsome
      exact ⟨_, (Option.some.inj hsome).symm⟩
  have hold : queryTexts config.namespace (encodeQueryString platform params) = textsIn platform params config.namespace :=
    funext fun key => queryTexts_encode _ key params
  obtain ⟨params', hupdate, hself, hothers⟩ := updateQueryString_texts platform h params newParams
  obtain ⟨before, hbefore, hgetBefore⟩ := parseQueryString_get? platform h params
  obtain ⟨after, hafter, hgetAfter⟩ := parseQueryString_get? platform h params'
  have hget : ∀ key, after.get? key = (readAt platform (readText platform config)
      (updatedTexts platform config newParams (textsIn platform params config.namespace)) key).or
        (config.defaultParams.get? key) := by
    intro key
    have htexts : textsIn platform params' config.namespace = fun k =>
        (updatedTexts platform config newParams (textsIn platform params config.namespace) k).eraseDups := by
      funext k
      rw [hself, updatedTexts_eraseDups fun key v hv => (hnew key v hv).2]
    rw [hgetAfter, htexts, readAt_eraseDups]
  have happlied : Applied config newParams before after ↔
      UpdateSafe platform config (encodeQueryString platform params) newParams := by
    rw [Applied, UpdateSafe, hold]
    have hkeys : ∀ key, _ ↔ _ := applied_iff platform hshared hnew (textsIn platform params config.namespace)
    constructor
    · intro hall
      refine ⟨fun key v hv hreset => ?_, fun key hnone => ?_⟩
      · have hkey := (hkeys key).mp (by rw [← hget, ← hgetBefore]; exact hall key)
        rw [hv] at hkey
        exact hkey hreset
      · have hkey := (hkeys key).mp (by rw [← hget, ← hgetBefore]; exact hall key)
        rw [hnone] at hkey
        exact hkey
    · rintro ⟨hwrite, hkeep⟩ key
      rw [hget, hgetBefore]
      apply (hkeys key).mpr
      cases hv : newParams.get? key with
      | none => exact hkeep key hv
      | some v => exact hwrite key v hv
  constructor
  · rintro ⟨updated, hsome', ⟨before', after', hbefore', hafter', hsame⟩, -⟩
    obtain rfl := Option.some.inj (hupdate.symm.trans hsome')
    obtain rfl := Option.some.inj (hbefore.symm.trans hbefore')
    obtain rfl := Option.some.inj (hafter.symm.trans hafter')
    exact happlied.mp hsame
  · intro hsafe
    refine ⟨_, hupdate, ⟨before, after, hbefore, hafter, happlied.mpr hsafe⟩, fun other hother hne => ?_⟩
    obtain ⟨before', hbefore', hgetBefore'⟩ := parseQueryString_get? platform hother params
    obtain ⟨after', hafter', hgetAfter'⟩ := parseQueryString_get? platform hother params'
    refine ⟨before', after', hbefore', hafter', fun key => ?_⟩
    have htexts : textsIn platform params' other.namespace = fun k => (textsIn platform params other.namespace k).eraseDups :=
      funext fun k => hothers _ hother hne k
    rw [hgetAfter', hgetBefore', htexts, readAt_eraseDups]

/-- Updates survive the URL, and removing takes back what was merged, exactly if the parameters are safe. -/
theorem params_exact (platform : Platform β) :
    (∀ (config : QSConfig β) (queryString : Str) (newParams : Dict Str (Val β)), IsWord config.namespace →
      (∃ (config₀ : QSConfig β) (query₀ : Str) (params₀ : Dict Str (Val β)),
        updateQueryString platform config₀ query₀ params₀ = some queryString) →
      SharedLists config newParams →
      (∀ key v, newParams.get? key = some v → key ∉ config.integerFields ∧ IsUpdate v) →
      (Survives platform config queryString newParams ↔ UpdateSafe platform config queryString newParams)) ∧
    ∀ (ns : Str) (integerFields : List Str) (a b : Dict Str (Val β)),
      (∀ key v, a.get? key = some v → IsParam v) → (∀ key v, b.get? key = some v → IsParam v) →
      ((∀ defaultParams, RemovesExactly platform ⟨ns, defaultParams, integerFields⟩ a b) ↔
        RemoveSafe platform integerFields a b) :=
  ⟨fun _ _ _ h hwritten hshared hnew => survives_iff h hwritten hshared hnew,
    fun ns integerFields _ _ ha hb => removes_iff ns integerFields ha hb⟩

/-! ### A platform -/

def objectNames : List Str :=
  ["constructor", "hasOwnProperty", "isPrototypeOf", "propertyIsEnumerable", "toLocaleString", "toString", "valueOf",
    "__defineGetter__", "__defineSetter__", "__lookupGetter__", "__lookupSetter__"].map String.toList

def arrayNames : List Str :=
  ["at", "concat", "entries", "every", "fill", "filter", "find", "flat", "forEach", "includes", "indexOf", "join", "keys",
    "map", "pop", "push", "reduce", "reverse", "shift", "slice", "some", "sort", "splice", "unshift", "values"].map
    String.toList

/-- The values of the language are their names. -/
def namedPlatform : Platform Str where
  objectPrototype := "[object Object]".toList
  ofObject k := if k ∈ objectNames then some k else none
  ofArray k := if k ∈ objectNames ++ arrayNames then some k else none
  builtinText name := name
  numberText n := (toString n).toList
  nearest n := n
  ofObject_dot := fun k hk => if_neg fun h => (by decide : ∀ k ∈ objectNames, '.' ∉ k) k h hk
  ofArray_dot := fun k hk => if_neg fun h => (by decide : ∀ k ∈ objectNames ++ arrayNames, '.' ∉ k) k h hk
  numberText_zero := by decide
  nearest_zero := rfl

def jobConfig : QSConfig Str := ⟨"job".toList, Dict.empty.set "page".toList (.one (.num 1)), ["page".toList]⟩

theorem isWord_job : IsWord jobConfig.namespace := by
  refine ⟨by decide, fun c hc => Or.inl ?_⟩
  have hall : "job".toList.all Char.isAlphanum = true := by decide +kernel
  exact List.all_eq_true.mp hall c hc

/-- A single value at a key. -/
def oneParam (key : String) (v : Val Str) : Dict Str (Val Str) := Dict.empty.set key.toList v

theorem get?_oneParam {key : String} {v w : Val Str} {k : Str} (h : (oneParam key v).get? k = some w) :
    k = key.toList ∧ w = v := by
  rw [oneParam, Dict.get?_set] at h
  split_ifs at h with hk
  · exact ⟨hk, (Option.some.inj h).symm⟩
  · cases h

theorem encodedPairs_name : encodedPairs "job.name=x".toList = [("job.name".toList, some "x".toList)] := by decide +kernel

theorem queryTexts_name {k : Str} (hk : k ≠ "name".toList) : queryTexts "job".toList "job.name=x".toList k = [] := by
  have hkey : decodeURIComponent "job.name".toList = some ("job.".toList ++ "name".toList) := by decide +kernel
  have hne : ¬some ("job.".toList ++ "name".toList) = some (inNamespace "job".toList k) := fun h =>
    hk (List.append_cancel_left (Option.some.inj h)).symm
  rw [queryTexts, encodedPairs_name, List.filterMap_cons, hkey, if_neg hne, List.filterMap_nil]

/-- A key of which nothing is inherited is written next to one that is there. -/
theorem updateSafe_name : UpdateSafe namedPlatform jobConfig "job.name=x".toList
    (oneParam "name" (.many none [.str "x".toList, .str "a&b".toList])) := by
  constructor
  · intro k v h _
    obtain ⟨rfl, rfl⟩ := get?_oneParam h
    have hproto : updatedTexts namedPlatform jobConfig (oneParam "name" (.many none [.str "x".toList, .str "a&b".toList]))
        (queryTexts jobConfig.namespace "job.name=x".toList) protoKey = [] := queryTexts_name (by decide)
    rw [if_neg (by decide), hproto]
    rfl
  · intro k hnone _ hold
    refine absurd (queryTexts_name fun hk => ?_) hold
    rw [hk] at hnone
    cases hnone

theorem params_exact_name :
    Survives namedPlatform jobConfig "job.name=x".toList
        (oneParam "name" (.many none [.str "x".toList, .str "a&b".toList])) ∧
      ∀ defaultParams, RemovesExactly namedPlatform ⟨"job".toList, defaultParams, ["page".toList]⟩
        (oneParam "page" (.one (.num 1))) (oneParam "page" (.one (.num 5))) := by
  have hone : ∀ n k v, (oneParam "page" (.one (.num n))).get? k = some v → IsParam v := by
    intro n k v h
    obtain ⟨-, rfl⟩ := get?_oneParam h
    exact .inl ⟨_, rfl, fun b h => by cases h⟩
  refine ⟨((params_exact namedPlatform).1 jobConfig _ _ ?_ ?_ ?_ ?_).mpr updateSafe_name,
    ((params_exact namedPlatform).2 "job".toList ["page".toList] _ _ (hone 1) (hone 5)).mpr ?_⟩
  · exact isWord_job
  · exact ⟨jobConfig, [], oneParam "name" (.one (.str "x".toList)), by decide +kernel⟩
  · intro k n items items' h
    obtain ⟨-, h⟩ := get?_oneParam h
    cases h
  · intro k v h
    obtain ⟨rfl, rfl⟩ := get?_oneParam h
    exact ⟨by decide, .inr (.inr ⟨none, ["x".toList, "a&b".toList], rfl, by decide, by decide⟩)⟩
  · intro k x h
    obtain ⟨rfl, rfl⟩ := get?_oneParam h
    refine ⟨fun _ => rfl, rfl⟩

/-- A key that objects inherit is read back with what they inherit, and an old 0 gives way to the new value. -/
theorem constructor_read_back :
    ¬Survives namedPlatform jobConfig [] (oneParam "constructor" (.one (.str "x".toList))) ∧
      ¬RemovesExactly namedPlatform jobConfig (oneParam "page" (.one (.num 0))) (oneParam "page" (.one (.num 5))) := by
  constructor
  · have hwritten : updateQueryString namedPlatform jobConfig [] .empty = some [] := by decide +kernel
    have hshared : SharedLists jobConfig (oneParam "constructor" (.one (.str "x".toList))) := by
      intro k n items items' h
      obtain ⟨-, h⟩ := get?_oneParam h
      cases h
    rw [survives_iff isWord_job ⟨_, _, _, hwritten⟩ hshared]
    · intro h
      have hkey := h.1 "constructor".toList (.one (.str "x".toList)) rfl Bool.false_ne_true
      rw [if_neg (by decide)] at hkey
      have htexts : updatedTexts namedPlatform jobConfig (oneParam "constructor" (.one (.str "x".toList)))
          (queryTexts jobConfig.namespace []) protoKey = [] := by decide +kernel
      have hinherited : inheritedOf namedPlatform (readText namedPlatform jobConfig) [] "constructor".toList =
          .one (.builtin "constructor".toList) := rfl
      rw [htexts, hinherited] at hkey
      cases hkey
    · intro k v h
      obtain ⟨rfl, rfl⟩ := get?_oneParam h
      exact ⟨by decide, .inr (.inl ⟨_, rfl⟩)⟩
  · intro h
    have hpage := h "page".toList (.one (.num 0)) rfl
    have hvalue : (removeParams namedPlatform jobConfig (mergeParams namedPlatform (oneParam "page" (.one (.num 0)))
        (oneParam "page" (.one (.num 5)))).own (oneParam "page" (.one (.num 5)))).own.get? "page".toList =
        some (.one (.num 1)) := by rfl
    have hnew : (oneParam "page" (.one (.num 5))).get? "page".toList = some (.one (.num 5)) := rfl
    rw [hvalue, hnew] at hpage
    dsimp only at hpage
    rw [if_neg (by decide)] at hpage
    cases hpage

end Forail.QueryStrings
