import BoostIrc.Parser

/-!
# The Tags of a Message

A message may start with tags: an at sign, the tags separated by semicolons, and a space. A tag
is a key, or a key with a value after an equals sign.

The constructor of `Message` splits a tag at *all* its equals signs, and puts it into the map when
there are one or two parts. A value that holds an equals sign itself makes a third, and of such a
tag nothing is kept: the branch for it prints the tag.

## Main results

* `Message.addTag_render`: one round of the loop, on a tag as it is written.
* `Message.foldl_addTag`: the whole loop, when no key comes twice.
* `Message.tags_tagged`: **the tags of a message**.
-/

namespace BoostIrc

/-- A **tag**: a key, and a value if there is one. -/
structure Tag where
  key : Bytes
  value : Option Bytes
  key_ne_nil : key ≠ []
  key_legal : SEMICOLON ∉ key ∧ EQUALS ∉ key ∧ SP ∉ key
  value_legal : ∀ v ∈ value, 0 ∉ v ∧ CR ∉ v ∧ LF ∉ v ∧ SEMICOLON ∉ v ∧ SP ∉ v

namespace Tag

/-- The tag as the protocol writes it. -/
def render (t : Tag) : Bytes :=
  t.key ++ t.value.elim [] (EQUALS :: ·)

/-- What the map is to hold of a tag: the key and the raw value, which is empty where there is
none. -/
def entry (t : Tag) : Bytes × Bytes :=
  (t.key, t.value.getD [])

/-- There is no equals sign in the value. -/
def IsPlain (t : Tag) : Prop :=
  ∀ v ∈ t.value, EQUALS ∉ v

instance : DecidablePred IsPlain := fun t =>
  inferInstanceAs (Decidable (∀ v ∈ t.value, EQUALS ∉ v))

/-- A byte that is neither in the key nor in the value is in the tag only as its equals sign. -/
theorem notMem_render (t : Tag) {x : Byte} (hx : x ≠ EQUALS) (hkey : x ∉ t.key)
    (hvalue : ∀ v ∈ t.value, x ∉ v) : x ∉ t.render := by
  rw [render, List.mem_append]
  rintro (h | h)
  · exact hkey h
  · cases hv : t.value with
    | none =>
        rw [hv] at h
        exact absurd h List.not_mem_nil
    | some v =>
        rw [hv, Option.elim_some] at h
        rcases List.mem_cons.mp h with heq | h
        · exact hx heq
        · exact hvalue v hv h

/-- There is no semicolon in a tag, so that the tags can be cut at the semicolons. -/
theorem semicolon_notMem_render (t : Tag) : SEMICOLON ∉ t.render :=
  t.notMem_render (by decide) t.key_legal.1 fun v hv => (t.value_legal v hv).2.2.2.1

/-- There is no space in a tag, so that the tags end at the first space. -/
theorem sp_notMem_render (t : Tag) : SP ∉ t.render :=
  t.notMem_render (by decide) t.key_legal.2.2 fun v hv => (t.value_legal v hv).2.2.2.2

/-- A tag without a value has one part, its key. -/
theorem splitOn_render_none {t : Tag} (h : t.value = none) : t.render.splitOn EQUALS = [t.key] := by
  rw [render, h, Option.elim_none, List.append_nil, List.splitOn_eq_singleton t.key_legal.2.1]

/-- The parts of a tag with a value are the key and the parts of the value. -/
theorem splitOn_render_some {t : Tag} {v : Bytes} (h : t.value = some v) :
    t.render.splitOn EQUALS = t.key :: v.splitOn EQUALS := by
  rw [render, h, Option.elim_some, List.splitOn_append_cons_self_of_not_mem t.key_legal.2.1]

end Tag

/-- A text that holds the separator has two parts or more. -/
theorem exists_splitOn_eq_of_mem {x : Byte} {l : Bytes} (h : x ∈ l) :
    ∃ a b rest, l.splitOn x = a :: b :: rest := by
  obtain ⟨a, l', rfl, ha⟩ := List.eq_append_cons_of_mem h
  obtain ⟨b, rest, hrest⟩ := List.exists_cons_of_ne_nil (List.splitOn_ne_nil x l')
  exact ⟨a, b, rest, by rw [List.splitOn_append_cons_self_of_not_mem ha, hrest]⟩

namespace Message

/-- **One round of the loop over the tags**, on a tag as it is written. A tag whose value has an
equals sign is split into more than two parts, and is printed instead of inserted. -/
theorem addTag_render (tags : List (Bytes × Bytes)) (t : Tag) :
    addTag tags t.render =
      if t.IsPlain then insertTag tags t.entry.1 t.entry.2 else tags := by
  have hpos : 0 < t.key.length := List.length_pos_of_ne_nil t.key_ne_nil
  cases hv : t.value with
  | none =>
      have hplain : t.IsPlain := by simp [Tag.IsPlain, hv]
      rw [if_pos hplain, addTag, Tag.splitOn_render_none hv, Tag.entry, hv]
      exact if_pos hpos
  | some v =>
      rw [addTag, Tag.splitOn_render_some hv, List.headD_cons, if_pos hpos, Tag.entry, hv]
      by_cases hmem : EQUALS ∈ v
      · have hplain : ¬ t.IsPlain := fun h => h v hv hmem
        obtain ⟨a, b, rest, hsplit⟩ := exists_splitOn_eq_of_mem hmem
        rw [if_neg hplain, hsplit]
      · have hplain : t.IsPlain := by
          intro w hw
          obtain rfl : v = w := Option.some.inj (hv.symm.trans hw)
          exact hmem
        rw [if_pos hplain, List.splitOn_eq_singleton hmem]
        rfl

/-- A key that is not in the map yet is inserted at its end. -/
theorem insertTag_of_notMem {tags : List (Bytes × Bytes)} {key : Bytes}
    (h : key ∉ tags.map Prod.fst) (value : Bytes) :
    insertTag tags key value = tags ++ [(key, value)] := by
  refine if_neg fun hany => h ?_
  obtain ⟨entry, hmem, heq⟩ := List.any_eq_true.mp hany
  exact List.mem_map.mpr ⟨entry, hmem, beq_iff_eq.mp heq⟩

/-- **The loop over the tags**, when no key comes twice: it inserts the plain ones in order. The
tags that were there before stay in front of them. -/
theorem foldl_addTag {ts : List Tag} (hkeys : (ts.map Tag.key).Nodup)
    (tags : List (Bytes × Bytes)) (hnew : ∀ t ∈ ts, t.key ∉ tags.map Prod.fst) :
    (ts.map Tag.render).foldl addTag tags =
      tags ++ (ts.filter (Tag.IsPlain ·)).map Tag.entry := by
  induction ts generalizing tags with
  | nil => simp
  | cons t ts ih =>
      obtain ⟨hnotMem, hkeys⟩ := List.nodup_cons.mp hkeys
      have hrest : ∀ u ∈ ts, u.key ∉ tags.map Prod.fst :=
        fun u hu => hnew u (List.mem_cons_of_mem t hu)
      rw [List.map_cons, List.foldl_cons, addTag_render]
      by_cases hplain : t.IsPlain
      · have hinsert := insertTag_of_notMem (hnew t List.mem_cons_self) t.entry.2
        rw [if_pos hplain, List.filter_cons_of_pos (by simpa using hplain), List.map_cons,
          show t.entry.1 = t.key from rfl, hinsert, ih hkeys, List.append_assoc]
        · rfl
        · intro u hu
          rw [List.map_append, List.mem_append]
          rintro (h | h)
          · exact hrest u hu h
          · have heq : u.key = t.key := List.mem_singleton.mp h
            exact hnotMem (List.mem_map.mpr ⟨u, hu, heq⟩)
      · rw [if_neg hplain, List.filter_cons_of_neg (by simpa using hplain)]
        exact ih hkeys tags hrest

/-- A message with tags: an at sign, the tags joined with semicolons, a space and the rest. -/
def tagged (ts : List Tag) (rest : Bytes) : Bytes :=
  AT :: [SEMICOLON].intercalate (ts.map Tag.render) ++ SP :: rest

/-- The loop of the constructor runs over the tags as they were written, and over nothing else. -/
theorem tags_ofRaw_tagged (ts : List Tag) {rest : Bytes} (hrest : starts rest = true) :
    (ofRaw (tagged ts rest)).tags =
      (([SEMICOLON].intercalate (ts.map Tag.render)).splitOn SEMICOLON).foldl addTag [] := by
  have hlocate : locate (tagged ts rest) = some (tagged ts rest) := rfl
  have hcut : cutTags ([SEMICOLON].intercalate (ts.map Tag.render) ++ SP :: rest) =
      some ([SEMICOLON].intercalate (ts.map Tag.render), rest) := by
    refine cutTags_append (notMem_intercalate (by decide) fun l hl => ?_) hrest
    obtain ⟨t, -, rfl⟩ := List.mem_map.mp hl
    exact t.sp_notMem_render
  have hsplit : splitTags (tagged ts rest) =
      (some ([SEMICOLON].intercalate (ts.map Tag.render)), rest) := by
    rw [tagged, List.cons_append, splitTags, if_pos rfl, hcut]
  rw [ofRaw_eq, hlocate, Option.elim_some, Line.toMessage, split, hsplit]
  rfl

/-- **The tags of a message** whose keys are distinct: each key of a plain tag with its value, and
nothing else. -/
theorem tags_tagged {ts : List Tag} (hkeys : (ts.map Tag.key).Nodup) {rest : Bytes}
    (hrest : starts rest = true) :
    (ofRaw (tagged ts rest)).tags = (ts.filter (Tag.IsPlain ·)).map Tag.entry := by
  rw [tags_ofRaw_tagged ts hrest]
  by_cases hnil : ts = []
  · subst hnil
    rfl
  · have hsplit : ([SEMICOLON].intercalate (ts.map Tag.render)).splitOn SEMICOLON =
        ts.map Tag.render := by
      refine List.splitOn_intercalate SEMICOLON (fun l hl => ?_) (by simpa using hnil)
      obtain ⟨t, -, rfl⟩ := List.mem_map.mp hl
      exact t.semicolon_notMem_render
    rw [hsplit, foldl_addTag hkeys [] (by simp), List.nil_append]

/-- A bare key. -/
def bareTag : Tag where
  key := ascii "subscriber"
  value := none
  key_ne_nil := by decide
  key_legal := by decide
  value_legal := by decide

/-- A value that holds an equals sign. -/
def paddedTag : Tag where
  key := ascii "id"
  value := some (ascii "YQ==")
  key_ne_nil := by decide
  key_legal := by decide
  value_legal := by decide

/-- Of a bare key and a value with equals signs the first is in the map. -/
theorem tags_tagged_bareTag :
    (ofRaw (tagged [bareTag, paddedTag] (ascii "PING"))).tags = [(ascii "subscriber", [])] :=
  tags_tagged (by decide) (by decide)

/-- A tag whose value holds an equals sign is lost. -/
theorem tags_tagged_paddedTag :
    (ofRaw (tagged [paddedTag] (ascii "PING"))).tags ≠ [paddedTag.entry] := by
  rw [tags_ofRaw_tagged [paddedTag] (by decide)]
  decide

end Message

end BoostIrc
