import PackedLogic.Config.Reader
import PackedLogic.Proofs.Settings
set_option autoImplicit false

/-!
# Texts of configurations

A configuration is written as an object with the objects `general` and `driver`, each of which holds
one setting.  Whatever the order, the escapes and the blanks, whatever else is written and whatever is
left out because it is the default, the reader finds the two settings (`parse?_eq_ok`).
-/

namespace PackedLogic.Config

open Json

/-! ## The grammar -/

/-- The switch that reports steps. -/
def tracing (b : Bool) : Setting where
  key := "trace_steps"
  Writes v := v = (toString b).toList
  IsDefault := b = false

/-- The number of steps that settling takes, in decimal. -/
def settling (n : Nat) : Setting where
  key := "settle_steps"
  Writes v := v = (toString n).toList
  IsDefault := n = 20

/-- The object around the switch. -/
def general (b : Bool) : Setting where
  key := "general"
  Writes := RecordText [tracing b]
  IsDefault := b = false

/-- The object around the number. -/
def driver (n : Nat) : Setting where
  key := "driver"
  Writes := RecordText [settling n]
  IsDefault := n = 20

/-- The text, blanks around it included, is an object with these two settings. -/
def ConfigText (b : Bool) (n : Nat) (s : List Char) : Prop :=
  ∃ b₁ v b₂, Blanks b₁ ∧ RecordText [general b, driver n] v ∧ Blanks b₂ ∧ s = b₁ ++ (v ++ b₂)

/-! ## The readers of the settings -/

theorem reads_traceSteps (b : Bool) (state : Config) :
    Reads traceStepsReader (toString b).toList state { state with traceSteps := b } := by
  obtain ⟨c, s, hcons, hc, hbracket, hscans⟩ := exists_scans_bool b
  rw [hcons, traceStepsReader]
  exact reads_scalar hc hbracket (fun rest _ => hscans rest) rfl

theorem reads_settleSteps {n : Nat} (hn : n < UInt64.size) (state : Config) :
    Reads settleStepsReader (toString n).toList state { state with settleSteps := n } := by
  obtain ⟨c, s, hcons, hc, hbracket, hscans⟩ := exists_scans_natural hn
  rw [hcons, settleStepsReader]
  exact reads_scalar hc hbracket hscans rfl

/-- The switch is read into the state. -/
def tracingEntry (b : Bool) : Entry Config where
  toSetting := tracing b
  read := traceStepsReader
  set config := { config with traceSteps := b }
  reads v state hv _ := (show v = _ from hv) ▸ reads_traceSteps b state

/-- The number is read into the state, if it fits a word. -/
def settlingEntry {n : Nat} (hn : n < UInt64.size) : Entry Config where
  toSetting := settling n
  read := settleStepsReader
  set config := { config with settleSteps := n }
  reads v state hv _ := (show v = _ from hv) ▸ reads_settleSteps hn state

/-- A record with one setting takes that setting in. -/
theorem reads_single {x : Entry Config} {v : List Char} {state : Config}
    (h : RecordText [x.toSetting] v) (hfresh : x.IsDefault → x.set state = state) :
    Reads (record (Entry.fields [x])) v state (x.set state) := by
  refine Entry.reads_record (List.nodup_singleton _) ?_ h fun y hy => ?_
  · intro a ha b hb state
    rw [List.mem_singleton.1 ha, List.mem_singleton.1 hb]
  · rw [List.mem_singleton.1 hy]
    exact hfresh

/-- The object around the switch is read into the state. -/
def generalEntry (b : Bool) : Entry Config where
  toSetting := general b
  read := record (Entry.fields [tracingEntry b])
  set config := { config with traceSteps := b }
  reads _ _ h hfresh := reads_single (x := tracingEntry b) h hfresh

/-- The object around the number is read into the state. -/
def driverEntry {n : Nat} (hn : n < UInt64.size) : Entry Config where
  toSetting := driver n
  read := record (Entry.fields [settlingEntry hn])
  set config := { config with settleSteps := n }
  reads _ _ h hfresh := reads_single (x := settlingEntry hn) h hfresh

/-! ## The configuration -/

variable {b : Bool} {n : Nat}

theorem commute_entries (hn : n < UInt64.size) : Entry.Commute [generalEntry b, driverEntry hn] := by
  intro x hx y hy state
  simp only [List.mem_cons, List.not_mem_nil, or_false] at hx hy
  rcases hx with rfl | rfl <;> rcases hy with rfl | rfl <;> rfl

/-- The object of a configuration sets both settings. -/
theorem reads_config (hn : n < UInt64.size) {v : List Char} (h : RecordText [general b, driver n] v) :
    Reads (record fields) v {} { traceSteps := b, settleSteps := n } := by
  have hdistinct : Entry.Distinct [generalEntry b, driverEntry hn] := by
    unfold Entry.Distinct
    simp [generalEntry, driverEntry, general, driver]
  refine Entry.reads_record hdistinct (commute_entries hn) h ?_
  intro x hx hdefault
  simp only [List.mem_cons, List.not_mem_nil, or_false] at hx
  rcases hx with rfl | rfl
  · obtain rfl : b = false := hdefault
    rfl
  · obtain rfl : n = 20 := hdefault
    rfl

/-- A configuration is read from any of its texts. -/
theorem parse?_eq_ok (hn : n < UInt64.size) {text : String} (h : ConfigText b n text.toList) :
    parse? text = .ok { traceSteps := b, settleSteps := n } := by
  obtain ⟨b₁, v, b₂, hb₁, hv, hb₂, htext⟩ := h
  have hends : Ends b₂ := by
    rw [← List.append_nil b₂]
    exact ends_nil.blanks_append hb₂
  obtain ⟨_, hscan⟩ : Scans (record fields {}) text.toList { traceSteps := b, settleSteps := n } b₂ := by
    rw [htext]
    exact reads_config hn hv b₁ b₂ hb₁ hends
  rw [parse?, read, hscan]
  simp only [bind, Except.bind, next?_blanks hb₂]
  rfl

/-! ## An unusual text -/

/-- An object with a key that is written with an escape. -/
def escapedDriver : List Char := "\x7b\"settle\\u005fsteps\": 5\x7d".toList

/-- An object with a member that nobody asks for. -/
def crowdedGeneral : List Char := "\x7b \"x\" :[null, \x7b\x7d],\"trace_steps\":true\x7d".toList

/-- The two objects, the second first, between members that nobody asks for. -/
def scattered : String :=
  String.ofList ("\n\x7b\"x\":-1.5e+3,\"driver\":".toList ++ escapedDriver ++
    ",\"x\":[],\"general\": ".toList ++ crowdedGeneral ++ "\x7d ".toList)

theorem recordText_escapedDriver : RecordText [settling 5] escapedDriver := by
  have hunit : CodeUnitText ['0', '0', '5', 'f'] '_'.toNat :=
    @CodeUnitText.mk '0' '0' '5' 'f' 0 0 5 15 (.inl rfl) (.inl rfl) (.inl rfl) (.inl rfl)
  have hkey : Spells "settle\\u005fsteps".toList "settle_steps".toList :=
    .plain (by decide) (.plain (by decide) (.plain (by decide) (.plain (by decide)
      (.plain (by decide) (.plain (by decide) (.unit hunit (spells_self (by decide))))))))
  refine ⟨[("settle_steps", "5".toList)], ?object, ?stands, ?other⟩
  case object =>
    exact .filled (@MembersText.last [] [] [' '] [] _ _ _ (by decide) hkey (by decide) (by decide)
      (by decide))
  case stands => simpa using ⟨by decide, by simp [settling]; rfl, by simp [settling]⟩
  case other => simp [settling]

theorem recordText_crowdedGeneral : RecordText [tracing true] crowdedGeneral := by
  have hvalue : ValueText "[null, \x7b\x7d]".toList :=
    .filled (@ItemsText.cons _ [] [] "null".toList [] _ .square (by decide)
      (.scalar (.word (by decide))) (by decide)
      (@ItemsText.last _ [] [' '] "\x7b\x7d".toList [] .square (by decide)
        (@ValueText.empty .curly [] (by decide)) (by decide)))
  refine ⟨[("x", "[null, \x7b\x7d]".toList), ("trace_steps", "true".toList)], ?object, ?stands, ?other⟩
  case object =>
    exact .filled (@MembersText.cons [' '] [' '] [] [] _ _ _ _ _ (by decide)
      (spells_self (s := "x".toList) (by decide)) (by decide) (by decide) (by decide)
      (@MembersText.last [] [] [] [] _ _ _ (by decide)
        (spells_self (s := "trace_steps".toList) (by decide)) (by decide) (by decide) (by decide)))
  case stands => simpa using ⟨by decide, by simp [tracing]; rfl, by simp [tracing]⟩
  case other => simpa [tracing] using hvalue

theorem configText_scattered : ConfigText true 5 scattered.toList := by
  have hnumber : ValueText "-1.5e+3".toList :=
    .scalar (.numeral (@NumeralText.mk ['-'] ['1'] ".5".toList "e+3".toList (.inr rfl)
      (by decide) (.inr ⟨['5'], by decide, rfl⟩)
      (.inr ⟨'e', by decide, ['+'], by decide, ['3'], by decide, rfl⟩)))
  have hempty : ValueText "[]".toList := @ValueText.empty .square [] (by decide)
  have hobject : ObjectText [("x", "-1.5e+3".toList), ("driver", escapedDriver), ("x", "[]".toList),
      ("general", crowdedGeneral)] _ :=
    .filled (@MembersText.cons [] [] [] [] "x".toList _ _ _ _ (by decide)
      (spells_self (by decide)) (by decide) (by decide) (by decide)
      (@MembersText.cons [] [] [] [] "driver".toList _ _ _ _ (by decide)
      (spells_self (by decide)) (by decide) (by decide) (by decide)
      (@MembersText.cons [] [] [] [] "x".toList _ _ _ _ (by decide)
      (spells_self (by decide)) (by decide) (by decide) (by decide)
      (@MembersText.last [] [] [' '] [] "general".toList _ _ (by decide)
      (spells_self (by decide)) (by decide) (by decide) (by decide)))))
  refine ⟨['\n'], _, [' '], by decide, ⟨_, hobject, ?stands, ?other⟩, by decide, ?text⟩
  case stands =>
    simpa using ⟨⟨by decide, by simpa [general] using recordText_crowdedGeneral, by simp [general]⟩,
      ⟨by decide, by simpa [driver] using recordText_escapedDriver, by simp [driver]⟩⟩
  case other => simpa [general, driver] using ⟨hnumber, hempty⟩
  case text => exact String.toList_ofList

theorem parse?_scattered_eq_ok : ConfigText true 5 scattered.toList ∧
    parse? scattered = .ok { traceSteps := true, settleSteps := 5 } :=
  ⟨configText_scattered, parse?_eq_ok (by decide) configText_scattered⟩

end PackedLogic.Config
