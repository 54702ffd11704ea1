import ThinkingUnderstanding.Persistence.Load

/-!
# Reading a URI back from its text

The text of a URI consists of its namespace, name, revision and uid with a delimiter between
any two. `KnowledgeURI(raw, true)` cuts it at the first occurrence of each delimiter. Blanks in
the name are written as `-`, and every `-` is read back as a blank, so a name with a `-` is
lost, and has the text of another name. The text is kept when it is made, and a field that is
assigned afterwards does not change it.

## Main definitions

* `KnowledgeURI.Delimited` — the delimiters don't occur in the fields
* `KnowledgeURI.SameFields` — namespace, name, revision and uid are the same
* `KnowledgeURI.ReadBack`, `KnowledgeURI.ToldApart` — the fields are read back from the text,
  and other fields have another text
* `KnowledgeURI.Spelled` — a text is read as these fields

## Main results

* `ofRaw_delimited` — what is read from a text with all delimiters in order
* `ofRaw_total_iff` — which texts are read at all
* `readBack_text_iff` — which texts are read as the fields of a URI
* `uriText_roundTrip_iff` — when the fields are read back, and told apart by their texts
-/

namespace ThinkingUnderstanding

/-! ## First occurrences -/

section Occurrences

variable {text pattern : String} {c : Char} {i : ℕ}

theorem isPrefixOf_drop_iff (single : pattern.toList = [c]) :
    pattern.toList.isPrefixOf (text.toList.drop i) ↔ text.toList[i]? = some c := by
  rw [single, List.isPrefixOf_iff_prefix, List.singleton_prefix_iff_head?_eq_some, List.head?_drop]

/-- A delimiter is found behind what does not contain it. -/
theorem indexOf_eq_some_iff (single : pattern.toList = [c]) :
    indexOf text pattern = some i ↔
      ∃ before after, text.toList = before ++ c :: after ∧ c ∉ before ∧ before.length = i := by
  rw [indexOf, List.find?_range_eq_some, isPrefixOf_drop_iff single]
  simp only [Bool.not_eq_true', ← Bool.not_eq_true, isPrefixOf_drop_iff single]
  constructor
  · rintro ⟨there, -, earlier⟩
    obtain ⟨inside, rfl⟩ := List.getElem?_eq_some_iff.mp there
    refine ⟨text.toList.take i, text.toList.drop (i + 1), ?_, fun member => ?_, ?_⟩
    · rw [← List.drop_eq_getElem_cons inside, List.take_append_drop]
    · obtain ⟨j, short, same⟩ := List.mem_take_iff_getElem.mp member
      exact earlier j (by omega) (List.getElem?_eq_some_iff.mpr ⟨by omega, same⟩)
    · rw [List.length_take]
      omega
  · rintro ⟨before, after, split, absent, rfl⟩
    have length : text.toList.length = before.length + (after.length + 1) := by
      rw [split, List.length_append, List.length_cons]
    refine ⟨by simp [split], ?_, fun j lt there => ?_⟩
    · rw [List.mem_range, ← String.length_toList]
      omega
    · rw [split, List.getElem?_append_left lt] at there
      exact absent (List.mem_of_getElem? there)

theorem indexOf_eq_none_iff (single : pattern.toList = [c]) :
    indexOf text pattern = none ↔ c ∉ text.toList := by
  constructor
  · intro nowhere member
    obtain ⟨before, after, split, absent⟩ := List.eq_append_cons_of_mem member
    rw [(indexOf_eq_some_iff single).mpr ⟨before, after, split, absent, rfl⟩] at nowhere
    cases nowhere
  · intro absent
    cases found : indexOf text pattern with
    | none => rfl
    | some i =>
      obtain ⟨before, after, split, -⟩ := (indexOf_eq_some_iff single).mp found
      rw [split] at absent
      exact absurd (List.mem_append_right before List.mem_cons_self) absent

theorem indexOf_eq_idxOf (single : pattern.toList = [c]) (member : c ∈ text.toList) :
    indexOf text pattern = some (text.toList.idxOf c) := by
  obtain ⟨before, after, split, absent⟩ := List.eq_append_cons_of_mem member
  refine (indexOf_eq_some_iff single).mpr ⟨before, after, split, absent, ?_⟩
  rw [split, List.idxOf_append_of_notMem absent, List.idxOf_cons_self, Nat.add_zero]

end Occurrences

namespace KnowledgeURI

/-- The text made of four fields, the name as it is written. -/
def delimitedText (namespaceText written revision uid : String) : String :=
  namespaceText ++ "/" ++ written ++ "@" ++ revision ++ "#" ++ uid

/-- The namespace contains no delimiter, and name and revision not those behind them. -/
structure Delimited (uri : KnowledgeURI) : Prop where
  namespace_slash : '/' ∉ uri.namespace_.text.toList
  namespace_at : '@' ∉ uri.namespace_.text.toList
  namespace_hash : '#' ∉ uri.namespace_.text.toList
  name_at : '@' ∉ uri.name.toList
  name_hash : '#' ∉ uri.name.toList
  revision_at : '@' ∉ uri.revision.toList
  revision_hash : '#' ∉ uri.revision.toList

/-- Namespace, name, revision and uid are the same texts. -/
structure SameFields (uri uri' : KnowledgeURI) : Prop where
  namespace_ : uri.namespace_.text = uri'.namespace_.text
  name : uri.name = uri'.name
  revision : uri.revision = uri'.revision
  uid : uri.uid = uri'.uid

/-- `KnowledgeURI(raw, true)` gives a URI with the fields. -/
def ReadBack (uri : KnowledgeURI) (raw : String) : Prop :=
  ∃ read, KnowledgeURI.ofRaw raw = some read ∧ read.SameFields uri

/-- Different URIs have different texts. -/
def ToldApart (uri uri' : KnowledgeURI) : Prop := ¬ uri.SameFields uri' → uri.text ≠ uri'.text

/-- A text that is read as the fields: it consists of them, where a blank of the name may be
written as `-`, or it is the name of a URI whose other fields are the defaults, and has not
all the delimiters. -/
inductive Spelled (uri : KnowledgeURI) : String → Prop
  | delimited (written : String) (name : replaceChar written '-' ' ' = uri.name) :
      Spelled uri (delimitedText uri.namespace_.text written uri.revision uri.uid)
  | name (namespace_ : uri.namespace_.text = defaultNamespace.text)
      (revision : uri.revision = "1.0") (uid : uri.uid = "")
      (lacks : '/' ∉ uri.name.toList ∨ '@' ∉ uri.name.toList ∨ '#' ∉ uri.name.toList) :
      Spelled uri uri.name

/-- The next text of a URI is read as its fields. A text that is made then is, unless the
name contains a `-`. -/
def TextCurrent (uri : KnowledgeURI) : Prop :=
  match uri.cached with
  | none => '-' ∉ uri.name.toList
  | some kept => uri.Spelled kept

variable {uri uri' : KnowledgeURI} {raw : String}

theorem mem_replaceChar_iff {text : String} (c target replacement : Char)
    (other : c ≠ replacement) (kept : c ≠ target) :
    c ∈ (replaceChar text target replacement).toList ↔ c ∈ text.toList := by
  rw [replaceChar, String.toList_ofList, List.mem_map]
  constructor
  · rintro ⟨ch, member, rfl⟩
    split_ifs at other ⊢
    · exact absurd rfl other
    · exact member
  · intro member
    exact ⟨c, member, if_neg kept⟩

theorem substring_of_split {text middle : String} {i j : ℕ} (before after : List Char)
    (split : text.toList = before ++ (middle.toList ++ after)) (begins : before.length = i)
    (ends : i + middle.toList.length = j) : substring text i j = some middle := by
  subst begins ends
  rw [substring, if_pos (Nat.le_add_right _ _), split, List.drop_left, Nat.add_sub_cancel_left,
    List.take_left, String.ofList_toList]

theorem toList_delimitedText (namespaceText written revision uid : String) :
    (delimitedText namespaceText written revision uid).toList =
      namespaceText.toList ++ '/' :: (written.toList ++ '@' :: (revision.toList ++
        '#' :: uid.toList)) := by
  simp [delimitedText]

/-- What is read from a text with all delimiters in order. -/
theorem ofRaw_delimited {namespaceText written revision uid : String}
    (namespace_slash : '/' ∉ namespaceText.toList) (namespace_at : '@' ∉ namespaceText.toList)
    (namespace_hash : '#' ∉ namespaceText.toList) (written_at : '@' ∉ written.toList)
    (written_hash : '#' ∉ written.toList) (revision_hash : '#' ∉ revision.toList) :
    KnowledgeURI.ofRaw (delimitedText namespaceText written revision uid) =
      some { namespace_ := { object := 1, text := namespaceText }
             name := replaceChar written '-' ' '
             revision
             uid } := by
  have text := toList_delimitedText namespaceText written revision uid
  -- the text up to the second delimiter, and up to the third
  let named := namespaceText.toList ++ '/' :: written.toList
  let revised := named ++ '@' :: revision.toList
  have slash : indexOf (delimitedText namespaceText written revision uid) "/" =
      some namespaceText.toList.length :=
    (indexOf_eq_some_iff (c := '/') rfl).mpr ⟨_, _, text, namespace_slash, rfl⟩
  have at_ : indexOf (delimitedText namespaceText written revision uid) "@" =
      some named.length :=
    (indexOf_eq_some_iff (c := '@') rfl).mpr ⟨named, revision.toList ++ '#' :: uid.toList,
      by simp [text, named], by simp [named, namespace_at, written_at], rfl⟩
  have hash : indexOf (delimitedText namespaceText written revision uid) "#" =
      some revised.length :=
    (indexOf_eq_some_iff (c := '#') rfl).mpr ⟨revised, uid.toList,
      by simp [text, named, revised],
      by simp [named, revised, namespace_hash, written_hash, revision_hash], rfl⟩
  have first : substring (delimitedText namespaceText written revision uid) 0
      namespaceText.toList.length = some namespaceText :=
    substring_of_split [] _ text rfl (Nat.zero_add _)
  have second : substring (delimitedText namespaceText written revision uid)
      (namespaceText.toList.length + 1) named.length = some written :=
    substring_of_split (namespaceText.toList ++ ['/']) ('@' :: (revision.toList ++
      '#' :: uid.toList)) (by simp [text]) (by simp) (by simp [named]; omega)
  have third : substring (delimitedText namespaceText written revision uid)
      (named.length + 1) revised.length = some revision :=
    substring_of_split (named ++ ['@']) ('#' :: uid.toList) (by simp [text, named]) (by simp)
      (by simp [revised]; omega)
  have fourth : substring (delimitedText namespaceText written revision uid)
      (revised.length + 1) (delimitedText namespaceText written revision uid).length = some uid :=
    substring_of_split (revised ++ ['#']) [] (by simp [text, named, revised]) (by simp)
      (by rw [← String.length_toList, text]; simp [named, revised]; omega)
  rw [KnowledgeURI.ofRaw, slash, at_, hash]
  simp only [first, second, third, fourth]
  rfl

theorem eq_delimitedText_iff {namespaceText written revision uid : String} :
    raw = delimitedText namespaceText written revision uid ↔
      raw.toList = namespaceText.toList ++ '/' :: (written.toList ++ '@' :: (revision.toList ++
        '#' :: uid.toList)) := by
  rw [← toList_delimitedText, String.toList_inj]

/-- A list from a position on, cut at a later element. -/
theorem drop_eq_take_append_cons {l : List Char} {c : Char} {i j : ℕ} (le : j ≤ i)
    (there : l[i]? = some c) :
    l.drop j = (l.drop j).take (i - j) ++ c :: l.drop (i + 1) := by
  obtain ⟨inside, rfl⟩ := List.getElem?_eq_some_iff.mp there
  rw [← List.drop_eq_getElem_cons inside]
  have rest : l.drop i = (l.drop j).drop (i - j) := by
    rw [List.drop_drop]
    congr 1
    omega
  rw [rest, List.take_append_drop]

theorem getElem?_of_indexOf {text pattern : String} {c : Char} {i : ℕ}
    (single : pattern.toList = [c]) (found : indexOf text pattern = some i) :
    text.toList[i]? = some c := by
  obtain ⟨before, after, split, -, rfl⟩ := (indexOf_eq_some_iff single).mp found
  simp [split]

theorem substring_eq_some {text piece : String} {i j : ℕ} (cut : substring text i j = some piece) :
    i ≤ j ∧ (text.toList.drop i).take (j - i) = piece.toList := by
  unfold substring at cut
  split_ifs at cut with le
  obtain rfl := Option.some.inj cut
  exact ⟨le, String.toList_ofList.symm⟩

/-- What is read of a text is either its name, or the pieces between the delimiters. -/
theorem spelled_of_ofRaw (read : KnowledgeURI.ofRaw raw = some uri) : uri.Spelled raw := by
  unfold KnowledgeURI.ofRaw at read
  -- a text without one of the three delimiters is a name
  cases slash : indexOf raw "/" with
  | none =>
    rw [slash] at read
    obtain rfl := Option.some.inj read
    exact .name rfl rfl rfl (Or.inl ((indexOf_eq_none_iff rfl).mp slash))
  | some i =>
  cases at_ : indexOf raw "@" with
  | none =>
    rw [slash, at_] at read
    obtain rfl := Option.some.inj read
    exact .name rfl rfl rfl (Or.inr (Or.inl ((indexOf_eq_none_iff rfl).mp at_)))
  | some j =>
  cases hash : indexOf raw "#" with
  | none =>
    rw [slash, at_, hash] at read
    obtain rfl := Option.some.inj read
    exact .name rfl rfl rfl (Or.inr (Or.inr ((indexOf_eq_none_iff rfl).mp hash)))
  | some k =>
    simp only [slash, at_, hash, Option.bind_eq_bind, Option.bind_eq_some_iff] at read
    obtain ⟨namespaceText, first, written, second, revision, third, uid, fourth, read⟩ := read
    obtain rfl := Option.some.inj read
    obtain ⟨-, first⟩ := substring_eq_some first
    obtain ⟨le, second⟩ := substring_eq_some second
    obtain ⟨le', third⟩ := substring_eq_some third
    obtain ⟨-, fourth⟩ := substring_eq_some fourth
    -- the parts are cut at the delimiters, so together they are the text
    have whole : raw = delimitedText namespaceText written revision uid := by
      rw [List.take_of_length_le (by rw [List.length_drop, String.length_toList])] at fourth
      rw [eq_delimitedText_iff, ← first, ← second, ← third, ← fourth,
        ← drop_eq_take_append_cons (c := '#') le' (getElem?_of_indexOf rfl hash),
        ← drop_eq_take_append_cons (c := '@') le (getElem?_of_indexOf rfl at_),
        ← drop_eq_take_append_cons (c := '/') (Nat.zero_le i) (getElem?_of_indexOf rfl slash),
        List.drop_zero]
    rw [whole]
    exact .delimited written rfl

theorem SameFields.symm (same : uri.SameFields uri') : uri'.SameFields uri :=
  ⟨same.namespace_.symm, same.name.symm, same.revision.symm, same.uid.symm⟩

theorem SameFields.trans {uri'' : KnowledgeURI} (first : uri.SameFields uri')
    (second : uri'.SameFields uri'') : uri.SameFields uri'' :=
  ⟨first.namespace_.trans second.namespace_, first.name.trans second.name,
    first.revision.trans second.revision, first.uid.trans second.uid⟩

theorem Spelled.of_sameFields (spelled : uri.Spelled raw) (same : uri.SameFields uri') :
    uri'.Spelled raw := by
  cases spelled with
  | delimited written name =>
    rw [same.namespace_, same.revision, same.uid]
    exact .delimited written (name.trans same.name)
  | name namespace_ revision uid lacks =>
    rw [same.name] at lacks ⊢
    exact .name (same.namespace_ ▸ namespace_) (same.revision ▸ revision) (same.uid ▸ uid) lacks

/-- A text without one of the delimiters is taken as a name. -/
theorem ofRaw_of_lacks (lacks : '/' ∉ raw.toList ∨ '@' ∉ raw.toList ∨ '#' ∉ raw.toList) :
    KnowledgeURI.ofRaw raw = some { name := raw } := by
  have none : indexOf raw "/" = none ∨ indexOf raw "@" = none ∨ indexOf raw "#" = none :=
    lacks.imp (indexOf_eq_none_iff rfl).mpr
      (Or.imp (indexOf_eq_none_iff rfl).mpr (indexOf_eq_none_iff rfl).mpr)
  unfold KnowledgeURI.ofRaw
  split
  · rename_i slash at_ hash
    rw [slash, at_, hash] at none
    simp at none
  · rfl

/-- A text with all delimiters is read when they first occur in the order of the fields. -/
theorem ofRaw_isSome_iff_of_indexOf {i j k : ℕ} (slash : indexOf raw "/" = some i)
    (at_ : indexOf raw "@" = some j) (hash : indexOf raw "#" = some k) :
    (∃ uri, KnowledgeURI.ofRaw raw = some uri) ↔ i < j ∧ j < k := by
  have inside : k < raw.length := by
    obtain ⟨inside, -⟩ := List.getElem?_eq_some_iff.mp (getElem?_of_indexOf (c := '#') rfl hash)
    rwa [String.length_toList] at inside
  constructor
  · rintro ⟨uri, read⟩
    rw [KnowledgeURI.ofRaw, slash, at_, hash] at read
    simp only [Option.bind_eq_bind, Option.bind_eq_some_iff] at read
    obtain ⟨_, -, _, second, _, third, -⟩ := read
    exact ⟨(substring_eq_some second).1, (substring_eq_some third).1⟩
  · rintro ⟨first, second⟩
    rw [KnowledgeURI.ofRaw, slash, at_, hash]
    simp only [substring, if_pos (Nat.zero_le i), if_pos (Nat.succ_le_of_lt first),
      if_pos (Nat.succ_le_of_lt second), if_pos (Nat.succ_le_of_lt inside)]
    exact ⟨_, rfl⟩

/-- `KnowledgeURI(raw, true)` returns exactly when a delimiter is missing, or the delimiters
first occur in the order of the fields they are behind. -/
theorem ofRaw_total_iff (raw : String) :
    (∃ uri, KnowledgeURI.ofRaw raw = some uri) ↔
      '/' ∉ raw.toList ∨ '@' ∉ raw.toList ∨ '#' ∉ raw.toList ∨
        raw.toList.idxOf '/' < raw.toList.idxOf '@' ∧
          raw.toList.idxOf '@' < raw.toList.idxOf '#' := by
  by_cases slash : '/' ∈ raw.toList
  case neg => exact iff_of_true ⟨_, ofRaw_of_lacks (Or.inl slash)⟩ (Or.inl slash)
  by_cases at_ : '@' ∈ raw.toList
  case neg =>
    exact iff_of_true ⟨_, ofRaw_of_lacks (Or.inr (Or.inl at_))⟩ (Or.inr (Or.inl at_))
  by_cases hash : '#' ∈ raw.toList
  case neg =>
    exact iff_of_true ⟨_, ofRaw_of_lacks (Or.inr (Or.inr hash))⟩ (Or.inr (Or.inr (Or.inl hash)))
  rw [ofRaw_isSome_iff_of_indexOf (indexOf_eq_idxOf (c := '/') rfl slash)
      (indexOf_eq_idxOf (c := '@') rfl at_) (indexOf_eq_idxOf (c := '#') rfl hash),
    or_iff_right (not_not_intro slash), or_iff_right (not_not_intro at_),
    or_iff_right (not_not_intro hash)]

/-- A text with the delimiters in another order is not read. -/
theorem ofRaw_not_total : ¬ ∀ raw, ∃ uri, KnowledgeURI.ofRaw raw = some uri := by
  intro total
  obtain ⟨uri, read⟩ := total "a#b@c/d"
  have none : KnowledgeURI.ofRaw "a#b@c/d" = none := by decide +kernel
  rw [none] at read
  cases read

theorem Delimited.ofRaw_delimitedText (delimited : uri.Delimited) {written : String}
    (written_at : '@' ∉ written.toList) (written_hash : '#' ∉ written.toList) :
    KnowledgeURI.ofRaw (delimitedText uri.namespace_.text written uri.revision uri.uid) =
      some { namespace_ := { object := 1, text := uri.namespace_.text }
             name := replaceChar written '-' ' '
             revision := uri.revision
             uid := uri.uid } :=
  ofRaw_delimited delimited.namespace_slash delimited.namespace_at delimited.namespace_hash
    written_at written_hash delimited.revision_hash

/-- A text is read as the fields of a URI exactly when it spells them. -/
theorem readBack_iff (delimited : uri.Delimited) : uri.ReadBack raw ↔ uri.Spelled raw := by
  constructor
  · rintro ⟨read, found, same⟩
    exact (spelled_of_ofRaw found).of_sameFields same
  · intro spelled
    cases spelled with
    | delimited written name =>
      have at_ : '@' ∉ written.toList := by
        rw [← mem_replaceChar_iff '@' '-' ' ' (by decide) (by decide), name]
        exact delimited.name_at
      have hash : '#' ∉ written.toList := by
        rw [← mem_replaceChar_iff '#' '-' ' ' (by decide) (by decide), name]
        exact delimited.name_hash
      exact ⟨_, delimited.ofRaw_delimitedText at_ hash, rfl, name, rfl, rfl⟩
    | name namespace_ revision uid lacks =>
      exact ⟨_, ofRaw_of_lacks lacks, namespace_.symm, rfl, revision.symm, uid.symm⟩

/-- Blanks written as `-` are read back when there was no `-` before. -/
theorem replaceChar_replaceChar_iff {name : String} :
    replaceChar (replaceChar name ' ' '-') '-' ' ' = name ↔ '-' ∉ name.toList := by
  constructor
  · intro same member
    rw [← same, replaceChar, String.toList_ofList, List.mem_map] at member
    obtain ⟨c, -, dash⟩ := member
    split_ifs at dash with other
    · exact absurd dash (by decide)
    · exact other dash
  · intro absent
    rw [replaceChar, replaceChar, String.toList_ofList, List.map_map, ← String.toList_inj,
      String.toList_ofList]
    calc
      _ = name.toList.map id := List.map_congr_left fun c member => by
        have other : c ≠ '-' := fun same => absent (same ▸ member)
        by_cases blank : c = ' ' <;> simp [blank, other]
      _ = name.toList := List.map_id _

/-- A text made of the fields is read as them exactly when the name contains no `-`. -/
theorem readBack_format_iff (delimited : uri.Delimited) :
    uri.ReadBack uri.format ↔ '-' ∉ uri.name.toList := by
  have at_ : '@' ∉ (replaceChar uri.name ' ' '-').toList := by
    rw [mem_replaceChar_iff '@' ' ' '-' (by decide) (by decide)]
    exact delimited.name_at
  have hash : '#' ∉ (replaceChar uri.name ' ' '-').toList := by
    rw [mem_replaceChar_iff '#' ' ' '-' (by decide) (by decide)]
    exact delimited.name_hash
  have read := delimited.ofRaw_delimitedText at_ hash
  rw [← replaceChar_replaceChar_iff]
  constructor
  · rintro ⟨_, found, same⟩
    obtain rfl := Option.some.inj (read.symm.trans found)
    exact same.name
  · intro name
    exact ⟨_, read, rfl, name, rfl, rfl⟩

/-- The next text of a URI is read as its fields exactly when it is current. -/
theorem readBack_text_iff (delimited : uri.Delimited) :
    uri.ReadBack uri.text ↔ uri.TextCurrent := by
  unfold KnowledgeURI.text TextCurrent
  cases uri.cached with
  | none => exact readBack_format_iff delimited
  | some kept => exact readBack_iff delimited

/-- URIs whose texts are read as their fields have different texts if they are different. -/
theorem toldApart_of_readBack (read : uri.ReadBack uri.text) (read' : uri'.ReadBack uri'.text) :
    uri.ToldApart uri' := by
  intro different same
  obtain ⟨first, found, fields⟩ := read
  obtain ⟨second, found', fields'⟩ := read'
  rw [same] at found
  obtain rfl := Option.some.inj (found.symm.trans found')
  exact different (fields.symm.trans fields')

/-- Of two URIs whose fields don't contain the delimiters, the fields are read back from the
texts and different ones have different texts exactly when both texts are current: made of
a name without `-`, or kept from when the fields were the same. -/
theorem uriText_roundTrip_iff (uri uri' : KnowledgeURI) (delimited : uri.Delimited)
    (delimited' : uri'.Delimited) :
    (uri.ReadBack uri.text ∧ uri'.ReadBack uri'.text ∧ uri.ToldApart uri') ↔
      uri.TextCurrent ∧ uri'.TextCurrent := by
  rw [← readBack_text_iff delimited, ← readBack_text_iff delimited']
  constructor
  · rintro ⟨read, read', -⟩
    exact ⟨read, read'⟩
  · rintro ⟨read, read'⟩
    exact ⟨read, read', toldApart_of_readBack read read'⟩

theorem user_computer_roundTrip_iff :
    (ReadBack { name := "user" } (text { name := "user" }) ∧
      ReadBack { name := "my computer" } (text { name := "my computer" }) ∧
      ToldApart { name := "user" } { name := "my computer" }) ↔
      TextCurrent { name := "user" } ∧ TextCurrent { name := "my computer" } :=
  uriText_roundTrip_iff { name := "user" } { name := "my computer" }
    ⟨by decide, by decide, by decide, by decide, by decide, by decide, by decide⟩
    ⟨by decide, by decide, by decide, by decide, by decide, by decide, by decide⟩

/-- A name with a `-` is not read back, and has the text of the name with a blank. -/
theorem ill_formed_not_told_apart :
    ¬ (ReadBack { name := "ill-formed" } (text { name := "ill-formed" }) ∧
      ReadBack { name := "ill formed" } (text { name := "ill formed" }) ∧
      ToldApart { name := "ill-formed" } { name := "ill formed" }) := by
  rintro ⟨-, -, apart⟩
  exact apart (fun same => absurd same.name (by decide)) (by decide)

end KnowledgeURI

end ThinkingUnderstanding
