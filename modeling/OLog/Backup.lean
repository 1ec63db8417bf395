import OLog.AlertText
import OLog.EventLoop
import OLog.Lib.Codec
import OLog.Session

/-!
The metadata backup. `backupMetaData` writes all contexts of a map into one
text, in key order and without escaping anything. A feedcode that `build` has
read holds no comma, and that is enough: each entry can be read off the front
of the text, up to three commas and a semicolon after digits, so the text
determines what it says of every feedcode.
-/

namespace OLog

open Lib

namespace ContextMap

/-- What one pass of the loop appends. -/
def entryText (entry : String × Context) : String :=
  let feedcode := "feedcode:" ++ entry.1
  let expectTimestamp := "expectTimestamp:" ++ showInt entry.2.expectTimestamp
  let preValue := "preValue:" ++ showFixed entry.2.preValue
  let preVolume := "preVolume:" ++ showInt entry.2.preVolume
  feedcode ++ "," ++ expectTimestamp ++ "," ++ preValue ++ "," ++ preVolume ++ ";"

def metaData (cm : ContextMap) : String :=
  cm.myMap.entries.foldl (fun metaData entry => metaData ++ entryText entry) ""

/-- The text handed to the backuper's producer, and the loops of the map after
each has stored its offsets. -/
def backupMetaData (cm : ContextMap) (myEventLoops : List EventLoop) :
    String × Except Fault (List EventLoop) :=
  (cm.metaData, myEventLoops.mapM EventLoop.storeOffset)

/-- No feedcode of the map holds a comma. -/
def CommaFree (cm : ContextMap) : Prop := ∀ feedcode ∈ cm.myMap.keys, ',' ∉ feedcode.toList

instance (cm : ContextMap) : Decidable cm.CommaFree :=
  List.decidableBAll _ cm.myMap.keys

end ContextMap

/-- What the backup says of a context. -/
def Context.backedUp (context : Context) : Int × Int × String :=
  (context.expectTimestamp, context.preVolume, showFixed context.preValue)

section Entries

variable {label₁ label₂ label₃ label₄ : List Char}

/-- Four labelled values and what follows them. -/
def entryChars (label₁ label₂ label₃ label₄ : List Char) (a b c d rest : List Char) : List Char :=
  (label₁ ++ a) ++ ',' :: ((label₂ ++ b) ++ ',' :: ((label₃ ++ c) ++ ',' ::
    ((label₄ ++ d) ++ ';' :: rest)))

/-- The labels separate nothing. The last value ends at a semicolon, which may
occur in the others. -/
theorem entryChars_inj (h₁ : ',' ∉ label₁) (h₂ : ',' ∉ label₂) (h₃ : ',' ∉ label₃)
    (h₄ : ';' ∉ label₄) {a b c d rest a' b' c' d' rest' : List Char}
    (ha : ',' ∉ a) (hb : ',' ∉ b) (hc : ',' ∉ c) (hd : ';' ∉ d)
    (ha' : ',' ∉ a') (hb' : ',' ∉ b') (hc' : ',' ∉ c') (hd' : ';' ∉ d')
    (h : entryChars label₁ label₂ label₃ label₄ a b c d rest =
      entryChars label₁ label₂ label₃ label₄ a' b' c' d' rest') :
    a = a' ∧ b = b' ∧ c = c' ∧ d = d' ∧ rest = rest' := by
  have hlabelled : ∀ {sep : Char} {label value : List Char}, sep ∉ label → sep ∉ value →
      sep ∉ label ++ value := by
    intro sep label value hlabel hvalue hmem
    exact (List.mem_append.mp hmem).elim hlabel hvalue
  obtain ⟨hfirst, h⟩ := append_sep_inj (hlabelled h₁ ha) (hlabelled h₁ ha') h
  obtain ⟨hsecond, h⟩ := append_sep_inj (hlabelled h₂ hb) (hlabelled h₂ hb') h
  obtain ⟨hthird, h⟩ := append_sep_inj (hlabelled h₃ hc) (hlabelled h₃ hc') h
  obtain ⟨hfourth, h⟩ := append_sep_inj (hlabelled h₄ hd) (hlabelled h₄ hd') h
  exact ⟨List.append_cancel_left hfirst, List.append_cancel_left hsecond,
    List.append_cancel_left hthird, List.append_cancel_left hfourth, h⟩

end Entries

namespace ContextMap

/-- The pieces of an entry, whatever the labels are. -/
theorem entryChars_of_pieces (label₁ label₂ label₃ label₄ a b c d comma semicolon : String)
    (hcomma : comma.toList = [',']) (hsemicolon : semicolon.toList = [';']) (rest : List Char) :
    ((label₁ ++ a) ++ comma ++ (label₂ ++ b) ++ comma ++ (label₃ ++ c) ++ comma ++
        (label₄ ++ d) ++ semicolon).toList ++ rest =
      entryChars label₁.toList label₂.toList label₃.toList label₄.toList a.toList b.toList
        c.toList d.toList rest := by
  simp only [entryChars, String.toList_append, hcomma, hsemicolon, List.append_assoc,
    List.cons_append, List.nil_append]

theorem entryText_append (entry : String × Context) (rest : List Char) :
    (entryText entry).toList ++ rest =
      entryChars "feedcode:".toList "expectTimestamp:".toList "preValue:".toList
        "preVolume:".toList entry.1.toList (showInt entry.2.expectTimestamp).toList
        (showFixed entry.2.preValue).toList (showInt entry.2.preVolume).toList rest :=
  entryChars_of_pieces _ _ _ _ _ _ _ _ _ _ rfl rfl rest

theorem toList_metaData (cm : ContextMap) :
    cm.metaData.toList = cm.myMap.entries.flatMap (fun entry => (entryText entry).toList) := by
  have hfold : ∀ (entries : List (String × Context)) (start : String),
      (entries.foldl (fun metaData entry => metaData ++ entryText entry) start).toList =
        start.toList ++ entries.flatMap (fun entry => (entryText entry).toList) := by
    intro entries
    induction entries with
    | nil => simp
    | cons entry entries ih =>
        intro start
        rw [List.foldl_cons, ih, String.toList_append, List.flatMap_cons, List.append_assoc]
  exact hfold _ ""

theorem semicolon_notMem_showInt (n : Int) : ';' ∉ (showInt n).toList := by
  intro hmem
  rw [toList_showInt] at hmem
  rcases List.mem_append.mp hmem with hsign | hdigit
  · unfold signText at hsign
    split_ifs at hsign
    · exact absurd (List.mem_singleton.mp hsign) (by decide)
    · cases hsign
  · exact absurd (isDigit_of_mem_toDigits hdigit) (by decide)

/-- Two entries in front of the same text say the same. -/
theorem entryText_inj {entry entry' : String × Context} {rest rest' : List Char}
    (hcode : ',' ∉ entry.1.toList) (hcode' : ',' ∉ entry'.1.toList)
    (h : (entryText entry).toList ++ rest = (entryText entry').toList ++ rest') :
    (entry.1, entry.2.backedUp) = (entry'.1, entry'.2.backedUp) ∧ rest = rest' := by
  have hint : ∀ n, ',' ∉ (showInt n).toList :=
    fun n hmem => ((FieldKind.plain_showInt n).2 _ hmem).2 rfl
  have hfixed : ∀ q, ',' ∉ (showFixed q).toList :=
    fun q hmem => ((FieldKind.plain_showFixed q).2 _ hmem).2 rfl
  rw [entryText_append, entryText_append] at h
  obtain ⟨hfeedcode, hexpect, hvalue, hvolume, hrest⟩ := entryChars_inj
    (by decide) (by decide) (by decide) (by decide)
    hcode (hint _) (hfixed _) (semicolon_notMem_showInt _)
    hcode' (hint _) (hfixed _) (semicolon_notMem_showInt _) h
  refine ⟨?_, hrest⟩
  unfold Context.backedUp
  rw [String.toList_injective hfeedcode, showInt_injective (String.toList_injective hexpect),
    showInt_injective (String.toList_injective hvolume), String.toList_injective hvalue]

/-- The induction over the entries: an entry is never empty, so the two lists
end together. -/
theorem entries_inj {first second : List (String × Context)}
    (hfirst : ∀ entry ∈ first, ',' ∉ entry.1.toList)
    (hsecond : ∀ entry ∈ second, ',' ∉ entry.1.toList)
    (h : first.flatMap (fun entry => (entryText entry).toList) =
      second.flatMap (fun entry => (entryText entry).toList)) :
    first.map (fun entry => (entry.1, entry.2.backedUp)) =
      second.map (fun entry => (entry.1, entry.2.backedUp)) := by
  have hne : ∀ (entry : String × Context) (rest : List Char),
      (entryText entry).toList ++ rest ≠ [] := by
    intro entry rest hnil
    rw [entryText_append] at hnil
    exact List.append_ne_nil_of_right_ne_nil _ (List.cons_ne_nil _ _) hnil
  induction first generalizing second with
  | nil =>
      cases second with
      | nil => rfl
      | cons entry' second => exact absurd h.symm (hne entry' _)
  | cons entry first ih =>
      cases second with
      | nil => exact absurd h (hne entry _)
      | cons entry' second =>
          obtain ⟨hcode, hfirst⟩ := List.forall_mem_cons.mp hfirst
          obtain ⟨hcode', hsecond⟩ := List.forall_mem_cons.mp hsecond
          obtain ⟨hentry, hrest⟩ := entryText_inj hcode hcode' h
          rw [List.map_cons, List.map_cons, hentry, ih hfirst hsecond hrest]

/-- What the text says of every feedcode, those included that have no context. -/
theorem backedUp_eq_of_metaData_eq {first second : ContextMap} (hfirst : first.CommaFree)
    (hsecond : second.CommaFree) (h : first.metaData = second.metaData) (feedcode : String) :
    (first.getContext feedcode).map Context.backedUp =
      (second.getContext feedcode).map Context.backedUp := by
  have hentries : ∀ {cm : ContextMap}, cm.CommaFree →
      ∀ entry ∈ cm.myMap.entries, ',' ∉ entry.1.toList :=
    fun hcm entry hentry => hcm _ (List.mem_map_of_mem hentry)
  have htexts := congrArg String.toList h
  rw [toList_metaData, toList_metaData] at htexts
  have hlists := entries_inj (hentries hfirst) (hentries hsecond) htexts
  have hlookup := congrArg (OrdMap.lookup feedcode) hlists
  rw [OrdMap.lookup_map, OrdMap.lookup_map] at hlookup
  exact hlookup

end ContextMap

theorem comma_notMem_blanked (body : List Char) :
    ',' ∉ body.map (fun c => if c = ',' then ' ' else c) := by
  intro hmem
  obtain ⟨c, _, hc⟩ := List.mem_map.mp hmem
  split_ifs at hc with hcomma
  · exact absurd hc (by decide)
  · exact hcomma hc

/-- The feedcode is the first word of the text, in which no comma is left; the
other members are set without touching it. -/
theorem StatisticsFeed.ofRecord_feedcode (round : Rat → Rat) (record : String) :
    ',' ∉ (ofRecord round record).feedcode.toList := by
  let blanked := record.toList.map (fun c => if c = ',' then ' ' else c)
  obtain ⟨field, fields, hlayout⟩ : ∃ field fields, layout = field :: fields := ⟨_, _, rfl⟩
  have hfirst : ',' ∉ (field.extract round {} (IStream.ofText blanked)).1.feedcode.toList := by
    cases hlayout
    simp only [StreamField.extract, IStream.ofText, Bool.false_eq_true, if_false]
    split
    · decide
    · intro hmem
      simp only [FieldKind.scan, scanWord, List.span_eq_takeWhile_dropWhile,
        String.toList_ofList] at hmem
      exact comma_notMem_blanked _
        ((List.dropWhile_sublist _).subset ((List.takeWhile_sublist _).subset hmem))
  have hrest : ',' ∉ (extractAll round fields (field.extract round {} (IStream.ofText blanked)).1
      (field.extract round {} (IStream.ofText blanked)).2).1.feedcode.toList := by
    refine extractAll_invariant round
      (I := fun sf : StatisticsFeed => ',' ∉ sf.feedcode.toList) fields _ _ ?_ hfirst
    cases hlayout
    intro field hfield text sf hsf
    simp only [List.mem_cons, List.not_mem_nil, or_false] at hfield
    rcases hfield with rfl | rfl | rfl | rfl | rfl | rfl | rfl | rfl | rfl | rfl | rfl | rfl |
      rfl | rfl | rfl | rfl | rfl | rfl
    all_goals exact hsf
  have hbuild : ofRecord round record =
      (extractAll round (field :: fields) {} (IStream.ofText blanked)).1 := by
    rw [← hlayout]
    rfl
  rw [hbuild, extractAll]
  dsimp only
  split_ifs
  · exact hfirst
  · exact hrest

/-- The contexts of a session over messages with built feeds are those of
feedcodes that `build` has read. -/
theorem Session.commaFree_of_run {round : Rat → Rat} {messages : List Incoming}
    (hbuilt : ∀ incoming ∈ messages, ∀ sf, incoming.feed = .statistics sf →
      ∃ record, sf = StatisticsFeed.ofRecord round record)
    {s : Session} (hrun : run messages = .ok s) : s.state.contextMap.CommaFree := by
  obtain ⟨t, ht, hprojects⟩ := run_projects messages
  cases Except.ok.inj (hrun.symm.trans ht)
  intro feedcode hkey
  obtain ⟨context, hcontext⟩ := (OrdMap.mem_keys_iff _ _).mp hkey
  have htracker := hprojects.tracker feedcode
  have hopened : s.state.tracker feedcode = some context.view := by
    unfold ExecState.tracker ContextMap.getContext
    rw [hcontext]
    rfl
  -- a feedcode without feeds has no context
  obtain ⟨sf, hsf⟩ : ∃ sf, sf ∈ statisticsOf feedcode messages := by
    apply List.exists_mem_of_ne_nil
    intro hnil
    rw [hnil, hopened] at htracker
    cases htracker
  obtain ⟨incoming, hincoming, hfilter⟩ := List.mem_filterMap.mp hsf
  obtain ⟨hstatistics, hcode⟩ := Option.filter_eq_some_iff.mp hfilter
  have hfeed : incoming.feed = .statistics sf := by
    cases hkind : incoming.feed with
    | price pf =>
        rw [hkind] at hstatistics
        cases hstatistics
    | statistics sf' =>
        rw [hkind] at hstatistics
        cases hstatistics
        rfl
  obtain ⟨record, rfl⟩ := hbuilt incoming hincoming sf hfeed
  rw [← of_decide_eq_true hcode]
  exact StatisticsFeed.ofRecord_feedcode round record

/-- `build` reads no feedcode with a comma in it, so a session over what it reads has
none in its map; and of maps with such feedcodes the backup is unambiguous: if two
maps have the same text, they have the same feedcodes, and the contexts of each agree
in everything that is printed, whatever else the feedcodes contain. -/
theorem backup_unambiguous :
    (∀ round record, ',' ∉ (StatisticsFeed.ofRecord round record).feedcode.toList) ∧
    (∀ (round : Rat → Rat) (messages : List Incoming),
      (∀ incoming ∈ messages, ∀ sf, incoming.feed = .statistics sf →
        ∃ record, sf = StatisticsFeed.ofRecord round record) →
      ∀ s, Session.run messages = .ok s → s.state.contextMap.CommaFree) ∧
    ∀ (first second : ContextMap) (firstLoops secondLoops : List EventLoop),
      first.CommaFree → second.CommaFree →
      (first.backupMetaData firstLoops).1 = (second.backupMetaData secondLoops).1 →
      (∀ feedcode, first.has feedcode = second.has feedcode) ∧
      ∀ feedcode context context', first.getContext feedcode = some context →
        second.getContext feedcode = some context' →
        context.expectTimestamp = context'.expectTimestamp ∧
          context.preVolume = context'.preVolume ∧
          showFixed context.preValue = showFixed context'.preValue := by
  refine ⟨StatisticsFeed.ofRecord_feedcode,
    fun round messages hbuilt s hrun => Session.commaFree_of_run hbuilt hrun, ?_⟩
  intro first second firstLoops secondLoops hfirst hsecond htext
  have hsame := ContextMap.backedUp_eq_of_metaData_eq hfirst hsecond htext
  refine ⟨?_, ?_⟩
  · intro feedcode
    have hsome := congrArg Option.isSome (hsame feedcode)
    rwa [Option.isSome_map, Option.isSome_map] at hsome
  · intro feedcode context context' hcontext hcontext'
    have hboth := hsame feedcode
    rw [hcontext, hcontext'] at hboth
    obtain ⟨hexpect, hrest⟩ := Prod.mk.inj (Option.some.inj hboth)
    obtain ⟨hvolume, hvalue⟩ := Prod.mk.inj hrest
    exact ⟨hexpect, hvolume, hvalue⟩

/-- A map of two feedcodes, one of which imitates an entry. -/
def imitatingMap (preValue : Rat) : ContextMap :=
  (ContextMap.empty.put "a;feedcode:b" ⟨MinQueue.empty, 5, preValue, 7⟩).put "b"
    ⟨MinQueue.empty, 6, 1, 8⟩

/-- The value stored may still differ behind the sixth decimal. -/
theorem backup_unambiguous_imitating :
    ((imitatingMap (1 / 3)).backupMetaData []).1 =
      ((imitatingMap (333333 / 1000000)).backupMetaData []).1 ∧
    ∀ context context', (imitatingMap (1 / 3)).getContext "a;feedcode:b" = some context →
      (imitatingMap (333333 / 1000000)).getContext "a;feedcode:b" = some context' →
      context.expectTimestamp = context'.expectTimestamp ∧
        context.preVolume = context'.preVolume ∧
        showFixed context.preValue = showFixed context'.preValue := by
  have htext : ((imitatingMap (1 / 3)).backupMetaData []).1 =
      ((imitatingMap (333333 / 1000000)).backupMetaData []).1 := by
    decide +kernel
  exact ⟨htext, (backup_unambiguous.2.2 (imitatingMap (1 / 3)) (imitatingMap (333333 / 1000000))
    [] [] (by decide +kernel) (by decide +kernel) htext).2 "a;feedcode:b"⟩

end OLog
