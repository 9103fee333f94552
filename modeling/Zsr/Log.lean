import Zsr.CLib.Scan

/-!
# The log file

`_print_log` and what it calls, with one file under the path of the configuration. A file that
cannot be opened for writing ends the program and is not considered.
-/

namespace Zsr
open CLib

inductive LogLevel
  | trace
  | debug
  | info
  | warn
  | error
  | fatal
  | off
  deriving DecidableEq

def LogLevel.value : LogLevel → ℕ
  | .trace => 0
  | .debug => 1
  | .info => 2
  | .warn => 3
  | .error => 4
  | .fatal => 5
  | .off => 6

inductive LogOutputStream
  | file
  | stdout
  | stderr
  deriving DecidableEq

/-- `log_config_t`, with the values that `G_LOG_CONFIG` starts with. -/
structure LogConfig where
  level : LogLevel := .info
  outputTo : LogOutputStream := .stderr
  maxByte : ℕ := 104857600

structure LogCall where
  level : LogLevel
  file : Text
  line : ℕ
  /-- What `vfprintf` makes of the format and its arguments. -/
  text : Text
  today : Text
  pid : ℕ

/-- What was written. A file that does not exist is `none`. -/
structure LogState where
  file : Option Text := none
  stdout : Text := []
  stderr : Text := []
  deriving DecidableEq

def LogCall.message (call : LogCall) : Text :=
  '[' :: call.today ++ "] [".toList ++ dec call.pid ++ "] ".toList ++
    (if call.level.value ≤ LogLevel.trace.value then
      call.file ++ ':' :: dec call.line ++ [' '] else []) ++ call.text ++ ['\n']

def getSizeInByte (file : Option Text) : ℕ :=
  match file with
  | some s => s.length
  | none => 0

/-- `open_log_file`: what is in the file when it is open, in the mode `wb` or `ab+`. -/
def openLogFile (maxByte : ℕ) (file : Option Text) : Text :=
  if maxByte ≤ getSizeInByte file then [] else file.getD []

def printLog (config : LogConfig) (st : LogState) (call : LogCall) : LogState :=
  if call.level = .off then st
  else if call.level.value < config.level.value then st
  else
    match config.outputTo with
    | .stdout => { st with stdout := st.stdout ++ call.message }
    | .stderr => { st with stderr := st.stderr ++ call.message }
    | .file => { st with file := some (openLogFile config.maxByte st.file ++ call.message) }

def logRun (config : LogConfig) (st : LogState) (calls : List LogCall) : LogState :=
  calls.foldl (printLog config) st

def LogCall.passes (config : LogConfig) (call : LogCall) : Bool :=
  call.level ≠ .off && config.level.value ≤ call.level.value

def LogState.content (st : LogState) : Text := st.file.getD []

theorem getSizeInByte_file (st : LogState) : getSizeInByte st.file = st.content.length := by
  rw [LogState.content]
  cases st.file <;> rfl

theorem logRun_concat (config : LogConfig) (st : LogState) (calls : List LogCall) (call : LogCall) :
    logRun config st (calls ++ [call]) = printLog config (logRun config st calls) call := by
  rw [logRun, List.foldl_append]
  rfl

section
variable {config : LogConfig}

theorem printLog_filtered {call : LogCall} (h : call.passes config = false) (st : LogState) :
    printLog config st call = st := by
  rw [LogCall.passes, Bool.and_eq_false_iff] at h
  rw [printLog]
  by_cases hoff : call.level = .off
  · rw [if_pos hoff]
  · have hlevel : call.level.value < config.level.value := by
      rcases h with h | h
      · exact absurd (by simpa using h) hoff
      · exact not_le.mp (of_decide_eq_false h)
    rw [if_neg hoff, if_pos hlevel]

theorem printLog_written (hfile : config.outputTo = .file) {call : LogCall}
    (h : call.passes config) (st : LogState) :
    (printLog config st call).content =
      (if config.maxByte ≤ st.content.length then [] else st.content) ++ call.message := by
  rw [LogCall.passes, Bool.and_eq_true] at h
  have hoff : ¬call.level = .off := by simpa using h.1
  have hlevel : ¬call.level.value < config.level.value := not_lt.mpr (of_decide_eq_true h.2)
  rw [printLog, if_neg hoff, if_neg hlevel, hfile]
  dsimp only
  rw [openLogFile, getSizeInByte_file]
  rfl

end

/-- The file holds the initial content and behind it all messages, or some of the messages up to
the latest one. -/
def HoldsLatest (initial : Text) (messages : List Text) (content : Text) : Prop :=
  content = initial ++ messages.flatten ∨
    ∃ latest, latest ≠ [] ∧ latest <:+ messages ∧ content = latest.flatten

theorem HoldsLatest.append {initial content : Text} {messages : List Text}
    (h : HoldsLatest initial messages content) (message : Text) :
    HoldsLatest initial (messages ++ [message]) (content ++ message) := by
  rcases h with rfl | ⟨latest, -, ⟨before, rfl⟩, rfl⟩
  · exact .inl (by simp)
  · exact .inr ⟨latest ++ [message], by simp, ⟨before, by simp⟩, by simp⟩

theorem holdsLatest_truncated (initial : Text) (messages : List Text) (message : Text) :
    HoldsLatest initial (messages ++ [message]) ([] ++ message) :=
  .inr ⟨[message], List.cons_ne_nil _ _, List.suffix_append _ _, by simp⟩

/-- The messages of the calls whose level passes the filter, in the order of the calls. -/
def passed (config : LogConfig) (calls : List LogCall) : List Text :=
  (calls.filter (LogCall.passes config)).map LogCall.message

theorem passed_concat (config : LogConfig) (calls : List LogCall) (call : LogCall) :
    passed config (calls ++ [call]) =
      passed config calls ++ if call.passes config then [call.message] else [] := by
  rw [passed, List.filter_append, List.map_append, passed, List.filter_singleton]
  cases call.passes config <;> rfl

theorem logRun_holdsLatest {config : LogConfig} (hfile : config.outputTo = .file) (st : LogState)
    (calls : List LogCall) :
    HoldsLatest st.content (passed config calls) (logRun config st calls).content := by
  induction calls using List.reverseRecOn with
  | nil => exact .inl (List.append_nil _).symm
  | append_singleton calls call ih =>
    rw [logRun_concat, passed_concat]
    by_cases hpass : call.passes config
    · rw [printLog_written hfile hpass, if_pos hpass]
      split
      · exact holdsLatest_truncated _ _ _
      · exact ih.append call.message
    · rw [printLog_filtered (Bool.eq_false_of_not_eq_true hpass), if_neg hpass, List.append_nil]
      exact ih

/-- After every call the file holds the initial content or nothing, and behind it complete
messages up to the latest; a write leaves it no longer than the bound and its own message. -/
theorem logRun_file {config : LogConfig} (hfile : config.outputTo = .file) (st : LogState)
    (calls : List LogCall) :
    HoldsLatest st.content (passed config calls) (logRun config st calls).content ∧
      ∀ call : LogCall, call.passes config →
        (logRun config st (calls ++ [call])).content.length ≤
          config.maxByte + call.message.length := by
  refine ⟨logRun_holdsLatest hfile st calls, fun call hpass => ?_⟩
  rw [logRun_concat, printLog_written hfile hpass, List.length_append, Nat.add_le_add_iff_right]
  split
  · exact Nat.zero_le _
  · next h => exact (not_le.mp h).le

def smallLog : LogConfig := { outputTo := .file, maxByte := 20 }

def logCall (level : LogLevel) (text : Text) : LogCall :=
  { level := level, file := "io.c".toList, line := 64, text := text,
    today := "2014-09-30 12:00:00".toList, pid := 7 }

/-- Two messages, and one between them that is filtered out. -/
def logCalls : List LogCall :=
  [logCall .error "a".toList, logCall .debug "b".toList, logCall .fatal "c".toList]

theorem logRun_file_small :
    HoldsLatest [] (passed smallLog logCalls) (logRun smallLog {} logCalls).content ∧
      ∀ call : LogCall, call.passes smallLog →
        (logRun smallLog {} (logCalls ++ [call])).content.length ≤
          smallLog.maxByte + call.message.length :=
  logRun_file rfl {} logCalls

example : (logRun smallLog {} logCalls).content = "[2014-09-30 12:00:00] [7] c\n".toList := by
  decide +kernel

end Zsr
