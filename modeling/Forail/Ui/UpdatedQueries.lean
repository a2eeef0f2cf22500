import Forail.Ui.ReadQueries

/-! Queries that are updated. The parameters that are written are read back, those of other keys and of other
namespaces are kept, unless what objects inherit at the keys comes between. -/

namespace Forail.QueryStrings

open UriComponent

variable {β : Type} [DecidableEq β] {platform : Platform β}

/-- A key in a namespace. -/
def inNamespace (ns key : Str) : Str := ns ++ '.' :: key

/-- The texts that a query has at a key of a namespace. -/
def queryTexts (ns queryString key : Str) : List Str :=
  (encodedPairs queryString).filterMap fun e =>
    if decodeURIComponent e.1 = some (inNamespace ns key) then decodeURIComponent (rawText e.2) else none

instance (a b : Str) : Decidable (Before a b) := inferInstanceAs (Decidable (_ ∧ _))

/-- What the object inherits when it comes to a key, from the texts at `__proto__`. -/
def inheritedOf (platform : Platform β) (read : Str → Str → Val β) (protoTexts : List Str) (key : Str) : Val β :=
  platform.inherited
    (protoOf platform (keptAt read protoKey (if Before protoKey key then protoTexts else []))) key

theorem isInherited_inheritedOf (platform : Platform β) (read : Str → Str → Val β) (protoTexts : List Str) (key : Str) :
    IsInherited (inheritedOf platform read protoTexts key) := by
  rw [inheritedOf]
  split_ifs with h
  · exact isInherited (.inl h)
  · exact isInherited (.inr rfl)

/-! ### Reading a namespace -/

/-- The groups of a namespace. -/
def namespaceGroups (ns : Str) (gs : List (Str × List Str)) : List (Str × List Str) :=
  gs.filterMap fun g => if (ns ++ ['.']) <+: g.1 then some (g.1.drop (ns.length + 1), g.2) else none

theorem inNamespace_eq (ns key : Str) : inNamespace ns key = (ns ++ ['.']) ++ key := by
  simp [inNamespace]

theorem mem_namespaceGroups {ns key : Str} {texts : List Str} {gs : List (Str × List Str)} :
    (key, texts) ∈ namespaceGroups ns gs ↔ (inNamespace ns key, texts) ∈ gs := by
  rw [namespaceGroups, List.mem_filterMap, inNamespace_eq]
  constructor
  · rintro ⟨⟨full, texts'⟩, hg, hsome⟩
    split_ifs at hsome with hpre
    obtain ⟨k, rfl⟩ := hpre
    rw [List.drop_left' (by simp), Option.some.injEq, Prod.mk.injEq] at hsome
    obtain ⟨rfl, rfl⟩ := hsome
    exact hg
  · intro hg
    refine ⟨_, hg, ?_⟩
    rw [if_pos (List.prefix_append _ _), List.drop_left' (by simp)]

theorem filterMap_flat (ns : Str) (gs : List (Str × List Str)) :
    (flat gs).filterMap (stripNamespace ns) = flat (namespaceGroups ns gs) := by
  induction gs with
  | nil => rfl
  | cons g gs ih =>
    obtain ⟨key, texts⟩ := g
    rw [flat_cons, List.filterMap_append, ih, List.filterMap_map]
    by_cases hpre : (ns ++ ['.']) <+: key
    · have hstrip : stripNamespace ns ∘ (fun text => (key, text)) = fun text => some (key.drop (ns.length + 1), text) :=
        funext fun text => if_pos hpre
      have hgroups : namespaceGroups ns ((key, texts) :: gs) =
          (key.drop (ns.length + 1), texts) :: namespaceGroups ns gs := List.filterMap_cons_some (if_pos hpre)
      rw [hstrip, hgroups, flat_cons, List.filterMap_eq_map']
    · have hstrip : stripNamespace ns ∘ (fun text => (key, text)) = fun _ => none := funext fun text => if_neg hpre
      have hgroups : namespaceGroups ns ((key, texts) :: gs) = namespaceGroups ns gs :=
        List.filterMap_cons_none (if_neg hpre)
      rw [hstrip, hgroups, List.filterMap_none, List.nil_append]

omit [DecidableEq β] in
theorem pairwise_groups (params : Dict Str (Val β)) : (groups platform params).Pairwise fun g h => Before g.1 h.1 := by
  rw [groups, List.pairwise_map]
  exact pairwise_sortKeys params.nodup

theorem pairwise_namespaceGroups (ns : Str) {gs : List (Str × List Str)}
    (h : gs.Pairwise fun g h => Before g.1 h.1) : (namespaceGroups ns gs).Pairwise fun g h => Before g.1 h.1 := by
  rw [namespaceGroups, List.pairwise_filterMap]
  refine h.imp fun {g h} hbefore g' hg' h' hh' => ?_
  split_ifs at hg' hh' with hg hh
  obtain rfl := Option.some.inj hg'
  obtain rfl := Option.some.inj hh'
  obtain ⟨a, ha⟩ := hg
  obtain ⟨b, hb⟩ := hh
  rw [← ha, ← hb, before_append] at hbefore
  rw [← ha, ← hb, List.drop_left' (by simp), List.drop_left' (by simp)]
  exact hbefore

theorem nodup_of_pairwise {gs : List (Str × List Str)} (h : gs.Pairwise fun g h => Before g.1 h.1) :
    (gs.map Prod.fst).Nodup :=
  List.pairwise_map.mpr (h.imp fun hbefore => hbefore.2)

/-- In sorted groups those before a key have the texts of an earlier key only. -/
theorem textsOfKey_before {gs hs : List (Str × List Str)} {k key : Str} {texts : List Str}
    (h : (gs ++ (k, texts) :: hs).Pairwise fun g h => Before g.1 h.1) (hne : key ≠ k) :
    textsOfKey gs key = if Before key k then textsOfKey (gs ++ (k, texts) :: hs) key else [] := by
  rw [List.pairwise_append, List.pairwise_cons] at h
  obtain ⟨-, ⟨hbehind, -⟩, hfront⟩ := h
  have hsplit : textsOfKey (gs ++ (k, texts) :: hs) key =
      if key ∈ gs.map Prod.fst then textsOfKey gs key else textsOfKey hs key := by
    split_ifs with hmem
    · obtain ⟨g, hg, rfl⟩ := List.mem_map.mp hmem
      have hsome : (gs.find? fun g' => g'.1 = g.1).isSome = true :=
        List.find?_isSome.mpr ⟨g, hg, decide_eq_true rfl⟩
      obtain ⟨g', hg'⟩ := Option.isSome_iff_exists.mp hsome
      rw [textsOfKey, List.find?_append, hg', textsOfKey, hg']
      rfl
    · rw [textsOfKey, List.find?_append, find?_of_not_mem hmem, List.find?_cons_of_neg (by simpa using Ne.symm hne)]
      rfl
  rw [hsplit]
  by_cases hmem : key ∈ gs.map Prod.fst
  · obtain ⟨g, hg, rfl⟩ := List.mem_map.mp hmem
    rw [if_pos (hfront g hg _ List.mem_cons_self), if_pos hmem]
  · rw [if_neg hmem, textsOfKey_of_not_mem hmem]
    split_ifs with hbefore
    · refine (textsOfKey_of_not_mem fun hin => ?_).symm
      obtain ⟨g, hg, rfl⟩ := List.mem_map.mp hin
      exact hbefore.asymm (hbehind g hg)
    · rfl

omit [DecidableEq β] in
theorem isScalar_readText (config : QSConfig β) (key text : Str) : IsScalar (readText platform config key text) := by
  intro a items h
  rw [readText] at h
  split_ifs at h
  rw [Platform.parseInt] at h
  split at h <;> cases h

theorem textsOfKey_of_mem {gs : List (Str × List Str)} (h : gs.Pairwise fun g h => Before g.1 h.1) {key : Str}
    {texts : List Str} (hmem : (key, texts) ∈ gs) : textsOfKey gs key = texts := by
  have hnodup := nodup_of_pairwise h
  obtain ⟨gs, hs, rfl⟩ := List.append_of_mem hmem
  rw [List.map_append, List.map_cons, List.nodup_append] at hnodup
  exact textsOfKey_split fun h => hnodup.2.2 _ h _ List.mem_cons_self rfl

omit [DecidableEq β] in
theorem mem_groups {params : Dict Str (Val β)} {key : Str} {texts : List Str} :
    (key, texts) ∈ groups platform params ↔ key ∈ params.keys ∧ texts = textsAt platform params key := by
  rw [groups, List.mem_map]
  constructor
  · rintro ⟨k, hk, heq⟩
    rw [Prod.mk.injEq] at heq
    obtain ⟨rfl, rfl⟩ := heq
    exact ⟨List.mem_mergeSort.mp hk, rfl⟩
  · rintro ⟨hkey, rfl⟩
    exact ⟨key, List.mem_mergeSort.mpr hkey, rfl⟩

omit [DecidableEq β] in
theorem textsAt_of_not_mem {params : Dict Str (Val β)} {key : Str} (h : key ∉ params.keys) :
    textsAt platform params key = [] := by
  rw [textsAt, Dict.get?_eq_none_of_not_mem params h]
  rfl

omit [DecidableEq β] in
theorem textsOfKey_namespace (ns key : Str) (params : Dict Str (Val β)) :
    textsOfKey (namespaceGroups ns (groups platform params)) key = textsAt platform params (inNamespace ns key) := by
  by_cases hmem : inNamespace ns key ∈ params.keys
  · apply textsOfKey_of_mem (pairwise_namespaceGroups ns (pairwise_groups params))
    exact mem_namespaceGroups.mpr (mem_groups.mpr ⟨hmem, rfl⟩)
  · rw [textsAt_of_not_mem hmem, textsOfKey_of_not_mem]
    intro h
    obtain ⟨⟨k, texts⟩, hg, rfl⟩ := List.mem_map.mp h
    exact hmem (mem_groups.mp (mem_namespaceGroups.mp hg)).1

omit [DecidableEq β] in
theorem textsOfKey_named {key : Str} (h : key ≠ []) (params : Dict Str (Val β)) :
    textsOfKey ((groups platform params).filter fun g => g.1 ≠ []) key = textsAt platform params key := by
  by_cases hmem : key ∈ params.keys
  · apply textsOfKey_of_mem ((pairwise_groups params).filter _)
    exact List.mem_filter.mpr ⟨mem_groups.mpr ⟨hmem, rfl⟩, decide_eq_true h⟩
  · rw [textsAt_of_not_mem hmem, textsOfKey_of_not_mem]
    intro hin
    obtain ⟨⟨k, texts⟩, hg, rfl⟩ := List.mem_map.mp hin
    exact hmem (mem_groups.mp (List.mem_filter.mp hg).1).1

theorem filter_flat (gs : List (Str × List Str)) :
    (flat gs).filter (fun e => e.1 ≠ []) = flat (gs.filter fun g => g.1 ≠ []) := by
  induction gs with
  | nil => rfl
  | cons g gs ih =>
    obtain ⟨key, texts⟩ := g
    rw [flat_cons, List.filter_append, ih, List.filter_map]
    by_cases hkey : key = []
    · have hnone : texts.filter ((fun e : Str × Str => decide (e.1 ≠ [])) ∘ fun text => (key, text)) = [] := by
        simp [hkey]
      rw [hnone, List.filter_cons_of_neg (by simpa using hkey)]
      rfl
    · have hall : texts.filter ((fun e : Str × Str => decide (e.1 ≠ [])) ∘ fun text => (key, text)) = texts := by
        simp [hkey]
      rw [hall, List.filter_cons_of_pos (by simpa using hkey), flat_cons]

/-- What an object that is read from texts has at a key. -/
def readAt (platform : Platform β) (read : Str → Str → Val β) (texts : Str → List Str) (key : Str) : Option (Val β) :=
  if key = protoKey ∨ texts key = [] then none
  else some (collapse ((inheritedOf platform read (texts protoKey) key).items ++ keptAt read key (texts key)).eraseDups)

theorem get?_foldl_sorted {read : Str → Str → Val β} (hread : ∀ k text, IsScalar (read k text))
    {gs : List (Str × List Str)} (hpairwise : gs.Pairwise fun g h => Before g.1 h.1) (key : Str) :
    ((flat gs).foldl (mergeAt platform read) .empty).own.get? key = readAt platform read (textsOfKey gs) key := by
  rw [readAt]
  by_cases hkey : key = protoKey
  · rw [if_pos (.inl hkey), hkey]
    exact get?_foldl_protoKey (get?_empty _) _
  by_cases hmem : key ∈ gs.map Prod.fst
  · obtain ⟨⟨k, texts⟩, hg, rfl⟩ := List.mem_map.mp hmem
    obtain ⟨gs₁, gs₂, rfl⟩ := List.append_of_mem hg
    have hnodup := nodup_of_pairwise hpairwise
    rw [List.map_append, List.map_cons, List.nodup_append, List.nodup_cons] at hnodup
    have hfront : k ∉ gs₁.map Prod.fst := fun h => hnodup.2.2 _ h _ List.mem_cons_self rfl
    rw [get?_foldl_flat hkey hfront hnodup.2.1.1, textsOfKey_split hfront, proto_foldl_flat hread hnodup.1,
      textsOfKey_before hpairwise (Ne.symm hkey)]
    have hfold := foldl_inherited hread (isInherited_inheritedOf platform read
      (textsOfKey (gs₁ ++ (k, texts) :: gs₂) protoKey) k) k texts
    rw [inheritedOf] at hfold
    rw [hfold, inheritedOf]
    simp only [hkey, false_or]
  · rw [get?_foldl_of_not_mem (not_mem_flat hmem), get?_empty, textsOfKey_of_not_mem hmem, if_pos (.inr rfl)]

/-- The texts of an object in a namespace. -/
def textsIn (platform : Platform β) (params : Dict Str (Val β)) (ns key : Str) : List Str :=
  textsAt platform params (inNamespace ns key)

theorem stringToObject_get? (platform : Platform β) {config : QSConfig β} (h : IsWord config.namespace) (params : Dict Str (Val β)) :
    ∃ o, stringToObject platform config (encodeQueryString platform params) = some o ∧ ∀ key,
      o.own.get? key =
        readAt platform (readText platform config) (textsIn platform params config.namespace) key := by
  refine ⟨_, stringToObject_encode platform h params, fun key => ?_⟩
  have hpairs : (pairs platform params).filterMap (stripNamespace config.namespace) =
      flat (namespaceGroups config.namespace (groups platform params)) := filterMap_flat _ _
  have htexts : textsOfKey (namespaceGroups config.namespace (groups platform params)) =
      textsIn platform params config.namespace := funext fun k => textsOfKey_namespace _ k params
  rw [hpairs, get?_foldl_sorted (isScalar_readText config) (pairwise_namespaceGroups _ (pairwise_groups params)), htexts]

/-- What the whole query has at a key with a dot. -/
theorem parseFullQueryString_get? (platform : Platform β) (params : Dict Str (Val β)) :
    ∃ o, parseFullQueryString platform (encodeQueryString platform params) = some o ∧ ∀ key, '.' ∈ key →
      o.own.get? key = if textsAt platform params key = [] then none
        else some (collapse ((textsAt platform params key).map Item.str).eraseDups) := by
  refine ⟨_, parseFullQueryString_encode platform params, fun key hdot => ?_⟩
  have hpairs : (pairs platform params).filter (fun e => e.1 ≠ []) =
      flat ((groups platform params).filter fun g => g.1 ≠ []) := filter_flat _
  have hne : key ≠ [] := by
    rintro rfl
    cases hdot
  have hproto : key ≠ protoKey := by
    rintro rfl
    exact absurd hdot (by decide)
  have hkept : ∀ texts : List Str, keptAt (fun _ text => (.one (.str text) : Val β)) key texts = texts.map Item.str := by
    intro texts
    rw [keptAt, List.map_eq_flatMap]
    rfl
  rw [hpairs, get?_foldl_sorted (fun _ _ => by rintro _ _ ⟨⟩) ((pairwise_groups params).filter _), readAt,
    textsOfKey_named hne, inheritedOf, inherited_dot _ hdot, hkept]
  simp only [hproto, false_or, Val.items, List.nil_append]

/-- What a query that was written says of a namespace. -/
theorem parseQueryString_get? (platform : Platform β) {config : QSConfig β} (h : IsWord config.namespace) (params : Dict Str (Val β)) :
    ∃ d, parseQueryString platform config (encodeQueryString platform params) = some d ∧ ∀ key,
      d.get? key = (readAt platform (readText platform config) (textsIn platform params config.namespace) key).or
        (config.defaultParams.get? key) := by
  obtain ⟨o, ho, hget⟩ := stringToObject_get? platform h params
  by_cases hnil : encodeQueryString platform params = []
  · refine ⟨config.defaultParams, by rw [parseQueryString, if_pos hnil], fun key => ?_⟩
    have hempty : stringToObject platform config [] = some .empty := by
      have hsplit : splitQuery [] = [([], none)] := by decide
      rw [stringToObject, hsplit]
      rfl
    rw [hnil, hempty] at ho
    obtain rfl := Option.some.inj ho
    rw [← hget, get?_empty, Option.none_or]
  · refine ⟨config.defaultParams.update o.own.entries, by rw [parseQueryString, if_neg hnil, ho]; rfl, fun key => ?_⟩
    rw [Dict.get?_update, hget]

/-! ### Repeated texts -/

theorem eraseDups_map_str (texts : List Str) :
    (texts.map (Item.str : Str → Item β)).eraseDups = texts.eraseDups.map Item.str := by
  induction texts using List.reverseRecOn with
  | nil => rfl
  | append_singleton texts text ih =>
    rw [List.map_append, List.map_singleton, eraseDups_concat, eraseDups_concat, ih]
    by_cases hmem : text ∈ texts
    · rw [if_pos hmem, if_pos (List.mem_map_of_mem hmem)]
    · rw [if_neg hmem, if_neg, List.map_append, List.map_singleton]
      rintro h
      obtain ⟨t, ht, heq⟩ := List.mem_map.mp h
      exact hmem (Item.str.inj heq ▸ ht)

omit [DecidableEq β] in
theorem textsOf_collapse {l : List (Item β)} (h : l ≠ []) : textsOf platform (collapse l) = l.map platform.itemText := by
  rcases l with _ | ⟨_, _ | ⟨_, _⟩⟩
  · exact absurd rfl h
  · rfl
  · rfl

theorem protoOf_eraseDups (read : Str → Str → Val β) (key : Str) (texts : List Str) :
    protoOf platform (keptAt read key texts.eraseDups) = protoOf platform (keptAt read key texts) := by
  have h := eraseDups_flatMap_eraseDups [Item.builtin platform.objectPrototype] texts fun text => kept (read key text)
  rw [List.singleton_append, List.singleton_append] at h
  rw [protoOf, keptAt, h]
  rfl

/-- A text that comes more than once is read as if it came once. -/
theorem readAt_eraseDups (read : Str → Str → Val β) (texts : Str → List Str) (key : Str) :
    readAt platform read (fun k => (texts k).eraseDups) key = readAt platform read texts key := by
  have hinherited : inheritedOf platform read (texts protoKey).eraseDups key =
      inheritedOf platform read (texts protoKey) key := by
    rw [inheritedOf, inheritedOf]
    split_ifs
    · rw [protoOf_eraseDups]
    · rfl
  have hkept : ((inheritedOf platform read (texts protoKey) key).items ++
      keptAt read key (texts key).eraseDups).eraseDups =
      ((inheritedOf platform read (texts protoKey) key).items ++ keptAt read key (texts key)).eraseDups :=
    eraseDups_flatMap_eraseDups _ _ _
  simp only [readAt, eraseDups_eq_nil, hinherited, hkept]

/-! ### Updates -/

/-- The texts of a key after an update. -/
def updatedTexts (platform : Platform β) (config : QSConfig β) (newParams : Dict Str (Val β)) (texts : Str → List Str)
    (key : Str) : List Str :=
  match newParams.get? key with
  | none => texts key
  | some v => if isReset platform config key v then [] else textsOf platform v

theorem inNamespace_injective {ns ns' k k' : Str} (hns : '.' ∉ ns) (hns' : '.' ∉ ns')
    (h : inNamespace ns k = inNamespace ns' k') : ns = ns' ∧ k = k' := by
  rw [inNamespace, inNamespace] at h
  induction ns generalizing ns' with
  | nil =>
    cases ns' with
    | nil => exact ⟨rfl, (List.cons.inj h).2⟩
    | cons c ns' => exact absurd ((List.cons.inj h).1 ▸ List.mem_cons_self) hns'
  | cons c ns ih =>
    cases ns' with
    | nil => exact absurd ((List.cons.inj h).1 ▸ List.mem_cons_self) hns
    | cons d ns' =>
      rw [List.cons_append, List.cons_append] at h
      obtain ⟨rfl, hrest⟩ := List.cons.inj h
      obtain ⟨rfl, rfl⟩ := ih (fun hin => hns (List.mem_cons_of_mem c hin)) (fun hin => hns' (List.mem_cons_of_mem c hin)) hrest
      exact ⟨rfl, rfl⟩

theorem dot_not_mem_of_word {ns : Str} (h : IsWord ns) : '.' ∉ ns := by
  intro hmem
  obtain h | h := h.2 '.' hmem
  · exact absurd h (by decide)
  · exact absurd h (by decide)

theorem inNamespace_ne_protoKey (ns key : Str) : inNamespace ns key ≠ protoKey := by
  intro h
  have hdot : '.' ∈ inNamespace ns key := List.mem_append_right _ List.mem_cons_self
  rw [h] at hdot
  exact absurd hdot (by decide)

theorem get?_updateParam {config : QSConfig β} (h : IsWord config.namespace) (o : Obj β) (param : Str × Val β)
    (key : Str) : (updateParam platform config o param).own.get? key =
      if key = inNamespace config.namespace param.1 then
        if isReset platform config param.1 param.2 then none else some param.2
      else o.own.get? key := by
  have hfull : fullKey config param.1 = inNamespace config.namespace param.1 := if_neg h.1
  rw [updateParam, hfull]
  by_cases hreset : isReset platform config param.1 param.2 = true
  · rw [if_pos hreset, Dict.get?_erase, if_pos hreset]
  · rw [if_neg hreset, assign_of_ne (inNamespace_ne_protoKey _ _), Dict.get?_set, if_neg hreset]

/-- What an update leaves of a key. -/
theorem get?_foldl_updateParam {config : QSConfig β} (h : IsWord config.namespace) (newParams : Dict Str (Val β))
    (o : Obj β) (key : Str) :
    (newParams.entries.foldl (updateParam platform config) o).own.get? (inNamespace config.namespace key) =
      match newParams.get? key with
      | none => o.own.get? (inNamespace config.namespace key)
      | some v => if isReset platform config key v then none else some v := by
  have hword := dot_not_mem_of_word h
  have hentry := Dict.foldl_entry (f := updateParam platform config) (d := newParams) (k := key)
    (π := fun o : Obj β => o.own.get? (inNamespace config.namespace key))
    (F := fun _ v => if isReset platform config key v then none else some v)
    (fun s v _ => by rw [get?_updateParam h, if_pos rfl])
    (fun s e _ hk => by
      rw [get?_updateParam h, if_neg]
      exact fun heq => hk (inNamespace_injective hword hword heq).2.symm) o
  rw [hentry]
  cases newParams.get? key <;> rfl

theorem get?_foldl_updateParam_of_ne {config : QSConfig β} (h : IsWord config.namespace) {ns : Str} (hns : IsWord ns)
    (hne : ns ≠ config.namespace) (l : List (Str × Val β)) (o : Obj β) (key : Str) :
    (l.foldl (updateParam platform config) o).own.get? (inNamespace ns key) = o.own.get? (inNamespace ns key) := by
  induction l generalizing o with
  | nil => rfl
  | cons param l ih =>
    rw [List.foldl_cons, ih, get?_updateParam h, if_neg]
    exact fun heq => hne (inNamespace_injective (dot_not_mem_of_word hns) (dot_not_mem_of_word h) heq).1

theorem updateQueryString_texts (platform : Platform β) {config : QSConfig β} (h : IsWord config.namespace) (params newParams : Dict Str (Val β)) :
    ∃ params', updateQueryString platform config (encodeQueryString platform params) newParams =
        some (encodeQueryString platform params') ∧
      (∀ key, textsIn platform params' config.namespace key = updatedTexts platform config newParams
        (fun k => (textsIn platform params config.namespace k).eraseDups) key) ∧
      ∀ ns, IsWord ns → ns ≠ config.namespace → ∀ key,
        textsIn platform params' ns key = (textsIn platform params ns key).eraseDups := by
  obtain ⟨o, ho, hget⟩ := parseFullQueryString_get? platform params
  have hold : ∀ ns key, (o.own.get? (inNamespace ns key)).elim [] (textsOf platform) =
      (textsIn platform params ns key).eraseDups := by
    intro ns key
    rw [hget (inNamespace ns key) (List.mem_append_right _ List.mem_cons_self)]
    show _ = (textsAt platform params (inNamespace ns key)).eraseDups
    split_ifs with hnil
    · rw [hnil]
      rfl
    · have hne : ((textsAt platform params (inNamespace ns key)).map (Item.str : Str → Item β)).eraseDups ≠ [] :=
        fun h => hnil (List.map_eq_nil_iff.mp (eraseDups_eq_nil.mp h))
      rw [Option.elim_some, textsOf_collapse hne, eraseDups_map_str, List.map_map]
      exact List.map_id _
  refine ⟨_, by rw [updateQueryString, ho]; rfl, fun key => ?_, fun ns hns hne key => ?_⟩
  · rw [textsIn, textsAt, get?_foldl_updateParam h, updatedTexts]
    cases newParams.get? key with
    | none => exact hold _ key
    | some v =>
      dsimp only
      split_ifs <;> rfl
  · rw [textsIn, textsAt, get?_foldl_updateParam_of_ne h hns hne]
    exact hold ns key

end Forail.QueryStrings
