import OLog.EndToEnd

/-!
Ticks that are missing from an instrument's log. The script never leaves out two
in a row, so the log is one of those that the tracker follows across its gaps.
A dropped tick is reported if, and only if, there is a record before it and 121
records come after it.
-/

namespace OLog

open Lib Generator

section Neighbours

variable {conf : Conf} {sent : List Generator.Feed} (hchain : sent.IsChain (Feed.Succeeds conf))

include hchain

theorem precedes_of_isChain : sent.Pairwise Feed.Precedes :=
  (hchain.imp (fun _ _ hstep => hstep.precedes)).pairwise

theorem eq_of_timestamp {feed other : Generator.Feed} (hfeed : feed ∈ sent) (hother : other ∈ sent)
    (h : feed.timestamp = other.timestamp) : feed = other := by
  have hnodup : (sent.map Generator.Feed.timestamp).Nodup :=
    List.pairwise_map.mpr ((precedes_of_isChain hchain).imp (fun hbefore => hbefore.timestamp.ne))
  exact List.inj_on_of_nodup_map hnodup hfeed hother h

/-- A feed that is not the last one has a successor. -/
theorem exists_next {feed later : Generator.Feed} (hfeed : feed ∈ sent) (hlater : later ∈ sent)
    (hlt : feed.timestamp < later.timestamp) : ∃ next ∈ sent, feed.Succeeds conf next := by
  induction sent with
  | nil => cases hfeed
  | cons first rest ih =>
      obtain ⟨hfirst, _⟩ := List.pairwise_cons.mp (precedes_of_isChain hchain)
      rcases List.mem_cons.mp hlater with rfl | hbehind
      · rcases List.mem_cons.mp hfeed with rfl | hfeed
        · exact absurd hlt (lt_irrefl _)
        · exact absurd (hfirst feed hfeed).timestamp hlt.asymm
      · rcases List.mem_cons.mp hfeed with rfl | hfeed
        · cases rest with
          | nil => exact absurd hbehind List.not_mem_nil
          | cons next rest =>
              exact ⟨next, by simp, (List.isChain_cons_cons.mp hchain).1⟩
        · obtain ⟨next, hnext, hstep⟩ := ih hchain.tail hfeed hbehind
          exact ⟨next, List.mem_cons_of_mem _ hnext, hstep⟩

/-- A feed that is not the first one has a predecessor. -/
theorem exists_previous {earlier feed : Generator.Feed} (hearlier : earlier ∈ sent)
    (hfeed : feed ∈ sent) (hlt : earlier.timestamp < feed.timestamp) :
    ∃ previous ∈ sent, previous.Succeeds conf feed := by
  induction sent generalizing earlier with
  | nil => cases hfeed
  | cons first rest ih =>
      obtain ⟨hfirst, hrest⟩ := List.pairwise_cons.mp (precedes_of_isChain hchain)
      rcases List.mem_cons.mp hfeed with rfl | hfeed
      · rcases List.mem_cons.mp hearlier with rfl | hearlier
        · exact absurd hlt (lt_irrefl _)
        · exact absurd (hfirst earlier hearlier).timestamp hlt.asymm
      · cases rest with
        | nil => cases hfeed
        | cons second rest =>
            obtain ⟨hstep, htail⟩ := List.isChain_cons_cons.mp hchain
            rcases List.mem_cons.mp hfeed with rfl | hlast
            · exact ⟨first, by simp, hstep⟩
            · have hsecond := (List.pairwise_cons.mp hrest).1 feed hlast
              obtain ⟨previous, hprevious, hbefore⟩ :=
                ih htail List.mem_cons_self hfeed hsecond.timestamp
              exact ⟨previous, List.mem_cons_of_mem _ hprevious, hbefore⟩

end Neighbours

/-- A turnover that gives no alert is positive. -/
theorem Tracker.turnover_pos {sf : StatisticsFeed} (h : Tracker.invalidAlerts sf = []) :
    0 < sf.turnoverValue ∧ 0 < sf.turnoverVolume := by
  unfold Tracker.invalidAlerts at h
  split_ifs at h with hinvalid
  exact ⟨not_le.mp (fun hle => hinvalid (Or.inl hle)),
    not_le.mp (fun hle => hinvalid (Or.inr hle))⟩

def kept (conf : Conf) (mark : Mark) (sent : List Generator.Feed) : List Generator.Feed :=
  sent.filter (fun feed => ¬ feed.Faulty conf mark)

theorem mem_kept {conf : Conf} {mark : Mark} {sent : List Generator.Feed} {feed : Generator.Feed} :
    feed ∈ kept conf mark sent ↔ feed ∈ sent ∧ ¬ feed.Faulty conf mark := by
  simp [kept]

section Kept

variable {conf : Conf} {mark : Mark} {feed : Generator.Feed} {rest : List Generator.Feed}

theorem kept_cons_of_faulty (h : feed.Faulty conf mark) :
    kept conf mark (feed :: rest) = kept conf mark rest :=
  List.filter_cons_of_neg (by simpa using h)

theorem kept_cons_of_not_faulty (h : ¬ feed.Faulty conf mark) :
    kept conf mark (feed :: rest) = feed :: kept conf mark rest :=
  List.filter_cons_of_pos (by simpa using h)

/-- Of the next two feeds one is kept. -/
theorem head?_kept (h : (feed :: rest).IsChain (Feed.Succeeds conf)) :
    ∀ other ∈ (kept conf mark rest).head?, other.timestamp = feed.timestamp + interval ∨
      other.timestamp = feed.timestamp + interval + interval := by
  cases rest with
  | nil => exact fun other hother => nomatch hother
  | cons next rest =>
      obtain ⟨hnext, htail⟩ := List.isChain_cons_cons.mp h
      by_cases hfaulty : next.Faulty conf mark
      · rw [kept_cons_of_faulty hfaulty]
        cases rest with
        | nil => exact fun other hother => nomatch hother
        | cons third rest =>
            have hthird := (List.isChain_cons_cons.mp htail).1
            rw [kept_cons_of_not_faulty (hthird.not_faulty hfaulty)]
            rintro other hother
            cases hother
            have hstep : next.timestamp = feed.timestamp + interval := hnext.advances.timestamp
            exact Or.inr (hstep ▸ hthird.advances.timestamp)
      · rw [kept_cons_of_not_faulty hfaulty]
        rintro other hother
        cases hother
        exact Or.inl hnext.advances.timestamp

theorem isChain_kept {sent : List Generator.Feed} (h : sent.IsChain (Feed.Succeeds conf)) :
    (kept conf mark sent).IsChain (fun feed other =>
      other.timestamp = feed.timestamp + interval ∨
        other.timestamp = feed.timestamp + interval + interval) := by
  induction sent with
  | nil => exact List.isChain_nil
  | cons feed rest ih =>
      by_cases hfaulty : feed.Faulty conf mark
      · rw [kept_cons_of_faulty hfaulty]
        exact ih h.tail
      · rw [kept_cons_of_not_faulty hfaulty]
        exact List.isChain_cons.mpr ⟨head?_kept h, ih h.tail⟩

end Kept

/-- The Statistics feeds that the log has of these. -/
def keptReports (conf : Conf) (mark : Mark) (sent : List Generator.Feed) : List StatisticsFeed :=
  (kept conf mark sent).map (Feed.statisticsReport conf)

theorem mem_keptReports {conf : Conf} {mark : Mark} {sent : List Generator.Feed}
    {sf : StatisticsFeed} : sf ∈ keptReports conf mark sent ↔
      ∃ feed ∈ sent, ¬ feed.Faulty conf mark ∧ feed.statisticsReport conf = sf := by
  simp [keptReports, mem_kept, and_assoc]

section KeptReports

variable {conf : Conf} (mark : Mark) {sent : List Generator.Feed}
  (hchain : sent.IsChain (Feed.Succeeds conf))

include hchain

theorem strides_keptReports : Tracker.Strides (keptReports conf mark sent) := by
  apply (List.isChain_map _).mpr
  apply (isChain_kept hchain).imp
  intro feed other hstep
  simpa only [statisticsReport_timestamp] using hstep

/-- The ticks left out are those with the fault that are neither before nor after
everything that is kept. -/
theorem leftOut_keptReports (t : Int) : Tracker.LeftOut (keptReports conf mark sent) t ↔
    (∃ feed ∈ sent, feed.Faulty conf mark ∧ feed.timestamp = t) ∧
      (∃ sf ∈ keptReports conf mark sent, sf.exchangeTimestamp < t) ∧
      ∃ sf ∈ keptReports conf mark sent, t < sf.exchangeTimestamp := by
  have hpos := interval_pos
  constructor
  · rintro ⟨⟨before, hbefore, hbeforeTick⟩, ⟨after, hafter, hafterTick⟩, habsent⟩
    refine ⟨?_, ⟨before, hbefore, by omega⟩, after, hafter, by omega⟩
    obtain ⟨feed, hfeed, _, rfl⟩ := mem_keptReports.mp hbefore
    obtain ⟨later, hlater, _, rfl⟩ := mem_keptReports.mp hafter
    rw [statisticsReport_timestamp] at hbeforeTick hafterTick
    obtain ⟨next, hnext, hstep⟩ := exists_next hchain hfeed hlater (by omega)
    have htick : next.timestamp = t := by
      rw [← hbeforeTick]
      exact hstep.advances.timestamp
    refine ⟨next, hnext, ?_, htick⟩
    by_contra hgood
    apply habsent _ (mem_keptReports.mpr ⟨next, hnext, hgood, rfl⟩)
    rw [statisticsReport_timestamp, htick]
  · rintro ⟨⟨feed, hfeed, hfaulty, rfl⟩, ⟨before, hbefore, hlt⟩, after, hafter, hgt⟩
    obtain ⟨earlier, hearlier, _, rfl⟩ := mem_keptReports.mp hbefore
    obtain ⟨later, hlater, _, rfl⟩ := mem_keptReports.mp hafter
    rw [statisticsReport_timestamp] at hlt hgt
    obtain ⟨previous, hprevious, hback⟩ := exists_previous hchain hearlier hfeed hlt
    obtain ⟨next, hnext, hstep⟩ := exists_next hchain hfeed hlater hgt
    refine ⟨⟨_, mem_keptReports.mpr ⟨previous, hprevious, ?_, rfl⟩, ?_⟩,
      ⟨_, mem_keptReports.mpr ⟨next, hnext, hstep.not_faulty hfaulty, rfl⟩, ?_⟩, ?_⟩
    · exact fun hprev => hback.not_faulty hprev hfaulty
    · rw [statisticsReport_timestamp]
      exact hback.advances.timestamp.symm
    · rw [statisticsReport_timestamp]
      exact hstep.advances.timestamp
    · intro sf hsf
      obtain ⟨other, hother, hgood, rfl⟩ := mem_keptReports.mp hsf
      rw [statisticsReport_timestamp]
      intro hsame
      exact hgood (eq_of_timestamp hchain hother hfeed hsame ▸ hfaulty)

end KeptReports

/-- A missing tick can be noticed: something was received before it, and more
behind it than the queue holds. -/
def Noticed (feeds : List StatisticsFeed) (t : Int) : Prop :=
  (∃ sf ∈ feeds, sf.exchangeTimestamp < t) ∧ queueLimit < Tracker.laterThan t feeds

instance (feeds : List StatisticsFeed) (t : Int) : Decidable (Noticed feeds t) := by
  unfold Noticed
  infer_instance

def faultyTicks (conf : Conf) (mark : Mark) (sent : List Generator.Feed) : List Int :=
  (sent.filter (fun feed => feed.Faulty conf mark)).map Generator.Feed.timestamp

section Track

variable {conf : Conf} (mark : Mark) {id : Int} {code : String} {sent : List Generator.Feed}
  (hchain : sent.IsChain (Feed.Succeeds conf)) (hsent : ∀ feed ∈ sent, feed.Sent id code)
  (hturnover : ∀ feed ∈ sent, ¬ feed.Faulty conf .errorTurnover)

include hchain

theorem faultyTicks_sorted : (faultyTicks conf mark sent).Pairwise (· < ·) := by
  have hsorted := (precedes_of_isChain hchain).filter (fun feed => feed.Faulty conf mark)
  exact List.pairwise_map.mpr (hsorted.imp (fun hbefore => hbefore.timestamp))

theorem noticed_iff (t : Int) :
    t ∈ (faultyTicks conf mark sent).filter (fun t => Noticed (keptReports conf mark sent) t) ↔
      Tracker.LeftOut (keptReports conf mark sent) t ∧
        queueLimit < Tracker.laterThan t (keptReports conf mark sent) := by
  have hfaulty : t ∈ faultyTicks conf mark sent ↔
      ∃ feed ∈ sent, feed.Faulty conf mark ∧ feed.timestamp = t := by
    simp [faultyTicks, and_assoc]
  have hlater : queueLimit < Tracker.laterThan t (keptReports conf mark sent) →
      ∃ sf ∈ keptReports conf mark sent, t < sf.exchangeTimestamp := by
    intro hcount
    obtain ⟨sf, hsf, hlt⟩ := List.countP_pos_iff.mp (Nat.zero_lt_of_lt hcount)
    exact ⟨sf, hsf, by simpa using hlt⟩
  rw [List.mem_filter, decide_eq_true_eq, hfaulty, leftOut_keptReports mark hchain, Noticed]
  constructor
  · rintro ⟨hfeed, hbefore, hcount⟩
    exact ⟨⟨hfeed, hbefore, hlater hcount⟩, hcount⟩
  · rintro ⟨⟨hfeed, hbefore, _⟩, hcount⟩
    exact ⟨hfeed, hbefore, hcount⟩

include hsent hturnover

theorem pairwise_keptReports : (keptReports conf mark sent).Pairwise (fun f g =>
    f.exchangeTimestamp < g.exchangeTimestamp ∧ f.turnover ≤ g.turnover) := by
  have hsorted := (precedes_of_isChain hchain).filter (fun feed => ¬ feed.Faulty conf mark)
  apply List.pairwise_map.mpr
  refine hsorted.imp_of_mem ?_
  intro feed other hfeed hother hbefore
  have hfeed := List.mem_of_mem_filter hfeed
  have hother := List.mem_of_mem_filter hother
  simp only [statisticsReport_timestamp]
  exact ⟨hbefore.timestamp, turnover_report_le (hturnover feed hfeed) (hturnover other hother)
    (hsent feed hfeed) hbefore⟩

/-- All that the tracker has to say about a log with gaps. -/
theorem track_keptReports :
    (Tracker.track (keptReports conf mark sent)).2 =
      ((faultyTicks conf mark sent).filter (fun t =>
        Noticed (keptReports conf mark sent) t)).map (Alert.miss code) := by
  have hticks := noticed_iff mark hchain
  have hsorted := (faultyTicks_sorted mark hchain).filter
    (fun t => Noticed (keptReports conf mark sent) t)
  have hpairwise := pairwise_keptReports mark hchain hsent hturnover
  have hstrides := strides_keptReports mark hchain
  have hcode : ∀ sf ∈ keptReports conf mark sent, sf.feedcode = code := by
    intro sf hsf
    obtain ⟨feed, hfeed, _, rfl⟩ := mem_keptReports.mp hsf
    exact statisticsReport_feedcode conf (hsent feed hfeed)
  have hvalid : ∀ sf ∈ keptReports conf mark sent, Tracker.invalidAlerts sf = [] := by
    intro sf hsf
    obtain ⟨feed, hfeed, _, rfl⟩ := mem_keptReports.mp hsf
    rw [invalidAlerts_report (hsent feed hfeed), if_neg (hturnover feed hfeed)]
  cases hkept : keptReports conf mark sent with
  | nil =>
      have hnone : (faultyTicks conf mark sent).filter (fun t => Noticed [] t) = [] := by
        apply List.filter_eq_nil_iff.mpr
        intro t _ hnoticed
        obtain ⟨⟨sf, hsf, _⟩, _⟩ := of_decide_eq_true hnoticed
        cases hsf
      rw [hnone]
      rfl
  | cons first rest =>
      rw [hkept] at hticks hsorted hpairwise hstrides hcode hvalid
      have hpositive := Tracker.turnover_pos (hvalid first List.mem_cons_self)
      obtain ⟨_, _, _, _, _, _, hdelay⟩ := Tracker.track_inOrder first hstrides
      have hquiet := Tracker.quiet_of_pairwise hpositive.1 hpositive.2 hpairwise
      rw [Tracker.track_misses hcode hvalid hquiet hdelay,
        Tracker.missTicks_inOrder hstrides hsorted hticks]

end Track

section Observed

variable {Value : Type} {reader : JsonReader Value} {beyond : Nat → Char} {conf : Conf}
  {words : String → List Sample} {inputs : Nat → ThreadInputs} {deliveries : List Delivery}
  {l : EventLoop}

/-- Of an instrument whose records are dropped now and then, the monitor reports
exactly the dropped ticks that it can notice, each once and in order. -/
theorem dropped_ticks_reported (h : Observed reader beyond conf words inputs deliveries l)
    {i : Nat} (hi : i < conf.instrumentAmount) (hdelay : Spared conf i .delay)
    (hturnover : Spared conf i .errorTurnover) :
    l.produced.filter (Alert.follows (feedcodeOf conf i)) =
      (((thread conf words i (inputs i)).markedTicks .drop .statistics).filter (fun t =>
        Noticed (statisticsAmong (feedcodeOf conf i) (arrivedFeeds deliveries)) t)).map
          (Alert.miss (feedcodeOf conf i)) := by
  obtain ⟨hchain, hsent⟩ := threadLog_succeeds conf words i (h.unit i hi)
  have halerts : (Tracker.track (statisticsAmong (feedcodeOf conf i)
      (thread conf words i (inputs i)).writtenFeeds)).2 =
        (((thread conf words i (inputs i)).markedTicks .drop .statistics).filter (fun t =>
          Noticed (statisticsAmong (feedcodeOf conf i)
            (thread conf words i (inputs i)).writtenFeeds) t)).map
              (Alert.miss (feedcodeOf conf i)) := by
    rw [statisticsAmong_thread hdelay words (h.unit i hi), markedTicks_thread hdelay]
    simp only [Feed.fault_eq_drop_iff]
    by_cases henabled : RecordKind.statistics.Enabled conf
    · simp only [henabled, true_and]
      exact track_keptReports .drop hchain hsent
        (fun feed hfeed => hturnover.not_faulty (hsent feed hfeed).id)
    · simp [henabled, Tracker.track_nil]
  rw [h.statistics hi, ← halerts]
  apply h.follows_eq hi
  rw [halerts]
  intro alert halert
  obtain ⟨_, _, rfl⟩ := List.mem_map.mp halert
  rfl

/-- Two ticks are dropped, half a minute and a minute after the start. -/
def dropConf : Conf := {steadyConf with drop := ⟨1000, 1, 2, 30⟩}

/-- After a minute and a half only the first one has been noticed. -/
theorem dropped_ticks_reported_steady :
    ∃ deliveries l, Observed textReader (fun _ => ' ') dropConf (fun _ => [])
        (fun _ => steadyInputs 185) deliveries l ∧
      (thread dropConf (fun _ => []) 0 (steadyInputs 185)).markedTicks .drop .statistics =
        [1600000030000000000, 1600000060000000000] ∧
      l.produced.filter (Alert.follows "rb1000") = [.miss "rb1000" 1600000030000000000] := by
  obtain ⟨deliveries, l, h⟩ := exists_observed_single dropConf (fun _ => []) rfl
    (steadyInputs_unit 185) (steadyInputs_timely (by decide)) (fun _ => ' ')
  have hreported := dropped_ticks_reported h Nat.one_pos (by decide) (by decide)
  have hcode : feedcodeOf dropConf 0 = "rb1000" := by decide +kernel
  have hnoticed : (thread dropConf (fun _ => []) 0 (steadyInputs 185)).markedTicks
        .drop .statistics = [1600000030000000000, 1600000060000000000] ∧
      Noticed (statisticsAmong "rb1000"
        (thread dropConf (fun _ => []) 0 (steadyInputs 185)).writtenFeeds)
          1600000030000000000 ∧
      ¬ Noticed (statisticsAmong "rb1000"
        (thread dropConf (fun _ => []) 0 (steadyInputs 185)).writtenFeeds)
          1600000060000000000 := by
    decide +kernel
  obtain ⟨hmarked, hfirst, hsecond⟩ := hnoticed
  refine ⟨deliveries, l, h, hmarked, ?_⟩
  rw [h.statistics Nat.one_pos, hcode, hmarked] at hreported
  simpa [hfirst, hsecond] using hreported

end Observed

end OLog
