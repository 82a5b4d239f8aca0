/-
**The danger set.**

`danger.ts`: the rules, each with the tracks it is armed on and its test of the text-scan view, and the
evaluator, which reports the first rule that is armed and hits. A regular expression of the source is
written part by part; the texts it is tested on are lowered.

* `DangerRule.monotone`: a rule that hits goes on to hit when strings and commands are added.
-/

import TianGong.Lib.Regex
import TianGong.SecGuard.Address
import TianGong.SecGuard.Guard

namespace TianGong.SecGuard

open TianGong.Lib

inductive TgSecObjective where
  | redteam | ctf | src
  deriving DecidableEq

def TG_SEC_OBJECTIVES : List TgSecObjective := [.redteam, .ctf, .src]

inductive TgSecDangerRuleId where
  | sqlDropTable | sqlDropDatabase | sqlTruncate | sqlDeleteFrom | sqlAlterDrop | sqlUpdateSet
  | sqlInsertInto | sqlReplaceInto | sqlLoadDataInfile | sqlIntoOutfile | sqlIntoDumpfile
  | toolSqlmapOsShell | toolSqlmapOsCmd | toolSqlmapFileWrite | toolSqlmapSqlShell
  | webActionDestroy | redisFlushall | redisFlushdb | mongoDropDatabase | persistCrontab
  | persistAddUser | persistAuthorizedKeys | persistSchtasks | persistSystemdUnit | rmSystemPath
  | businessPasswordChange | businessContactRebind | businessPaymentMove | businessMessagingBomb
  | wordlistHuge | bruteforceHashcat | bruteforceJohnWordlist
  deriving DecidableEq

/-- The closed id of a rule. -/
def TgSecDangerRuleId.name : TgSecDangerRuleId → Text
  | .sqlDropTable => text "danger.sql.drop-table"
  | .sqlDropDatabase => text "danger.sql.drop-database"
  | .sqlTruncate => text "danger.sql.truncate"
  | .sqlDeleteFrom => text "danger.sql.delete-from"
  | .sqlAlterDrop => text "danger.sql.alter-drop"
  | .sqlUpdateSet => text "danger.sql.update-set"
  | .sqlInsertInto => text "danger.sql.insert-into"
  | .sqlReplaceInto => text "danger.sql.replace-into"
  | .sqlLoadDataInfile => text "danger.sql.load-data-infile"
  | .sqlIntoOutfile => text "danger.sql.into-outfile"
  | .sqlIntoDumpfile => text "danger.sql.into-dumpfile"
  | .toolSqlmapOsShell => text "danger.tool.sqlmap-os-shell"
  | .toolSqlmapOsCmd => text "danger.tool.sqlmap-os-cmd"
  | .toolSqlmapFileWrite => text "danger.tool.sqlmap-file-write"
  | .toolSqlmapSqlShell => text "danger.tool.sqlmap-sql-shell"
  | .webActionDestroy => text "danger.web.action-destroy"
  | .redisFlushall => text "danger.redis.flushall"
  | .redisFlushdb => text "danger.redis.flushdb"
  | .mongoDropDatabase => text "danger.mongo.drop-database"
  | .persistCrontab => text "danger.persist.crontab"
  | .persistAddUser => text "danger.persist.add-user"
  | .persistAuthorizedKeys => text "danger.persist.authorized-keys"
  | .persistSchtasks => text "danger.persist.schtasks"
  | .persistSystemdUnit => text "danger.persist.systemd-unit"
  | .rmSystemPath => text "danger.rm.system-path"
  | .businessPasswordChange => text "danger.business.password-change"
  | .businessContactRebind => text "danger.business.contact-rebind"
  | .businessPaymentMove => text "danger.business.payment-move"
  | .businessMessagingBomb => text "danger.business.messaging-bomb"
  | .wordlistHuge => text "danger.wordlist.huge"
  | .bruteforceHashcat => text "danger.bruteforce.hashcat"
  | .bruteforceJohnWordlist => text "danger.bruteforce.john-wordlist"

def ALL_OBJECTIVES : List TgSecObjective := TG_SEC_OBJECTIVES

def REAL_TARGET_OBJECTIVES : List TgSecObjective := [.redteam, .src]

def CTF_OBJECTIVES : List TgSecObjective := [.ctf]

/-! ### Patterns -/

abbrev Pattern := Regex UInt16

namespace Pattern

open Regex

def lit (t : Text) : Pattern := spelled t

/-- A unit of a text. -/
def among (t : Text) : Pattern := one fun c => t.contains c

/-- `\b`. -/
def b : Pattern := edge isWord

/-- `\s`. -/
def s : Pattern := one isSpace

/-- `\s+`. -/
def gap : Pattern := plus s

/-- `[\s\S]`. -/
def any : Pattern := one fun _ => true

/-- Texts to choose from. -/
def words (list : List Text) : Pattern := oneOf (list.map lit)

/-- A name in SQL: word units, full stops, dollar signs and hyphens, with some units more. -/
def sqlName (more : Text) : Pattern := plus (one fun c => isWord c || (text ".$-" ++ more).contains c)

/-- The flag `i`. -/
def ignoreCase : Pattern → Pattern :=
  widen fun holds c => holds c || holds (lowerUnit c) || (isLower c && holds (c - 32))

end Pattern

open Pattern Regex

/-- One compiled rule. -/
structure DangerRule where
  id : TgSecDangerRuleId
  reason : Text
  objectives : List TgSecObjective
  matchesView : TgSecTextSurface → Text → Bool

section Rules

variable (L : LowerCase)

def anyText (view : TgSecTextSurface) (patterns : List Pattern) : Bool :=
  view.strings.any fun value => patterns.any fun pattern => pattern.test (L.lower value)

def isWriteTool (toolName : Text) : Bool :=
  toolName = text "write" || toolName = text "edit" || toolName = text "multiedit" ||
    toolName = text "patch"

/-! ### Text rules -/

/-- Two words with a gap between them. -/
def twoWords (first second : Text) : Pattern := all [b, lit first, gap, lit second, b]

def SQL_DESTRUCTIVE : List (TgSecDangerRuleId × List Pattern × Text) :=
  [(.sqlDropTable, [all [b, lit (text "drop"), gap, oneOf [lit (text "table"),
        all [lit (text "temp"), opt (lit (text "orary")), gap, lit (text "table")]],
        opt (lit (text "s")), b]],
      text "a DROP TABLE destroys target table data"),
    (.sqlDropDatabase,
      [all [b, lit (text "drop"), gap, words [text "database", text "schema"], opt (lit (text "s")), b]],
      text "a DROP DATABASE destroys the whole target database"),
    (.sqlTruncate, [all [b, lit (text "truncate"), gap, opt (all [lit (text "table"), gap]),
        opt (among (text "`\"'")), sqlName []]],
      text "a TRUNCATE empties a target table in place"),
    (.sqlDeleteFrom, [twoWords (text "delete") (text "from")],
      text "a DELETE FROM removes target rows"),
    (.sqlAlterDrop, [all [b, lit (text "alter"), b, star any, b, lit (text "drop"), gap,
        words [text "table", text "database", text "schema", text "column", text "index",
          text "constraint", text "partition", text "user"], b]],
      text "an ALTER ... DROP removes a target object"),
    (.sqlUpdateSet,
      [all [b, lit (text "update"), gap, sqlName (text "`\"'["), gap, lit (text "set"), gap,
        sqlName (text "`\"'["), star s, lit (text "=")]],
      text "an UPDATE ... SET rewrites target rows"),
    (.sqlInsertInto, [twoWords (text "insert") (text "into")],
      text "an INSERT INTO writes target rows"),
    (.sqlReplaceInto, [twoWords (text "replace") (text "into")],
      text "a REPLACE INTO overwrites target rows"),
    (.sqlLoadDataInfile,
      [all [b, lit (text "load"), gap, lit (text "data"), gap, opt (all [lit (text "local"), gap]),
          lit (text "infile"), b],
        all [b, lit (text "load"), gap, lit (text "data"), b, upTo 40 any, b, lit (text "infile"), b]],
      text "LOAD DATA INFILE moves a server file into a target table"),
    (.sqlIntoOutfile, [twoWords (text "into") (text "outfile")],
      text "SELECT ... INTO OUTFILE writes a file on the target"),
    (.sqlIntoDumpfile, [twoWords (text "into") (text "dumpfile")],
      text "SELECT ... INTO DUMPFILE writes a raw file on the target")]

def TOOL_DESTRUCTIVE : List (TgSecDangerRuleId × List Pattern × Text) :=
  [(.toolSqlmapOsShell, [all [lit (text "--os-shell"), b]],
      text "sqlmap --os-shell opens an interactive shell on the target host"),
    (.toolSqlmapOsCmd, [all [lit (text "--os-cmd"), b]],
      text "sqlmap --os-cmd runs a command on the target host"),
    (.toolSqlmapFileWrite, [all [lit (text "--file-write"), b]],
      text "sqlmap --file-write writes a file onto the target host"),
    (.toolSqlmapSqlShell, [all [lit (text "--sql-shell"), b]],
      text "sqlmap --sql-shell opens an interactive SQL shell on the target"),
    (.webActionDestroy,
      [all [b, lit (text "action"), star s, lit (text "="), star s, opt (among (text "\"'")),
          words [text "delete", text "destroy", text "drop", text "remove", text "purge",
            text "truncate"], b],
        all [b, words [text "do", text "op", text "method", text "func", text "route"], star s,
          lit (text "="), star s, opt (among (text "\"'")),
          words [text "delete", text "destroy", text "drop"], b]],
      text "a web request carries a destructive action parameter"),
    (.redisFlushall, [all [b, lit (text "flushall"), b]],
      text "Redis FLUSHALL wipes every key on the target"),
    (.redisFlushdb, [all [b, lit (text "flushdb"), b]],
      text "Redis FLUSHDB wipes the current target keyspace"),
    (.mongoDropDatabase, [all [b, lit (text "drop"), star s, lit (text "database"), b]],
      text "a Mongo dropDatabase destroys the target database")]

def textRules (table : List (TgSecDangerRuleId × List Pattern × Text)) : List DangerRule :=
  table.map fun row => ⟨row.1, text "danger set: " ++ row.2.2, ALL_OBJECTIVES,
    fun view _ => anyText L view row.2.1⟩

/-! ### Persistence -/

def crontabWrites (command : TgSecCommandGroup) : Bool :=
  let args := command.tokens.drop 1
  let files := args.filter fun token => !startsWith token (text "-")
  let flags := args.filter fun token => startsWith token (text "-")
  if command.head ≠ text "crontab" then false
  else if 0 < files.length then true
  else if flags.length = 0 then true
  else !flags.all fun flag => clusterWith (unit 'l') flag

def PERSISTENCE_RULES : List DangerRule :=
  [⟨.persistCrontab, text "danger set: a crontab write installs a persistent scheduled task",
      ALL_OBJECTIVES, fun view _ => view.commands.any crontabWrites⟩,
    ⟨.persistAddUser,
      text "danger set: an account-creation command leaves a persistent user on the target",
      ALL_OBJECTIVES, fun view _ => view.commands.any fun command =>
        command.head = text "useradd" || command.head = text "adduser"⟩,
    ⟨.persistAuthorizedKeys,
      text "danger set: an SSH authorized_keys write plants persistent key-based access",
      ALL_OBJECTIVES, fun view toolName =>
        anyText L view
          [all [oneOf [lit (text ">>"), all [b, lit (text "tee"), b]], star any,
              lit (text "authorized_keys")],
            all [lit (text "authorized_keys"), star any, b, lit (text "tee"), b]] ||
        (isWriteTool toolName && view.strings.any fun value =>
          (text "authorized_keys").isSuffixOf (L.lower (trim value)))⟩,
    ⟨.persistSchtasks, text "danger set: a schtasks create registers a persistent Windows task",
      ALL_OBJECTIVES, fun view _ =>
        anyText L view [all [b, lit (text "schtasks"), b, star any, lit (text "/create"), b]]⟩,
    ⟨.persistSystemdUnit,
      text "danger set: a systemd unit write or enable leaves a persistent service on the target",
      ALL_OBJECTIVES, fun view toolName =>
        anyText L view
          [twoWords (text "systemctl") (text "enable"),
            all [oneOf [lit (text ">>"), lit (text "tee"), all [b, lit (text "cp"), b],
              all [b, lit (text "mv"), b], all [b, lit (text "install"), b],
              all [b, lit (text "printf"), b], all [b, lit (text "echo"), b]], star any,
              lit (text "/etc/systemd/system")]] ||
        (isWriteTool toolName && view.strings.any fun value =>
          startsWith (L.lower (trim value)) (text "/etc/systemd/system/"))⟩]

/-! ### Removal of system directories -/

def SYSTEM_DIRECTORIES : List Text :=
  ["/etc", "/usr", "/var", "/boot", "/dev", "/sys", "/proc", "/lib", "/bin", "/sbin"].map text

/-- `target.replace(/\/\*$/, "")`. -/
def stripGlob (target : Text) : Text :=
  if (text "/*").isSuffixOf target then target.take (target.length - 2) else target

def CRITICAL_PATH_REMOVAL : List DangerRule :=
  [⟨.rmSystemPath, text "danger set: a forced recursive removal of a system directory",
    ALL_OBJECTIVES, fun view _ => view.commands.any fun command =>
      command.head = text "rm" && hasForcedRecursiveFlags command.tokens &&
        (nonFlagTargets command).any fun target =>
          let path := stripGlob target
          SYSTEM_DIRECTORIES.any fun directory =>
            path = directory || startsWith path (directory ++ text "/")⟩]

/-! ### Business actions -/

/-- One of some words, at most so many units, and one of others. -/
def near (firsts : List Text) (gap : Nat) (seconds : List Text) : Pattern :=
  all [b, words firsts, b, upTo gap any, b, words seconds, b]

/-- `re-?bind`, and two words like it. -/
def REBINDS : List Text := [text "rebind", text "re-bind", text "relink", text "unbind"]

def PASSWORDS : List Text := [text "password", text "passwd", text "pwd"]

def BUSINESS_RULES : List DangerRule :=
  [⟨.businessPasswordChange,
      text "danger set: a request changes or resets a password on a live business account",
      REAL_TARGET_OBJECTIVES, fun view _ => anyText L view
        [near [text "change", text "reset", text "modify", text "update"] 24 PASSWORDS,
          near PASSWORDS 16 [text "change", text "reset", text "modify"],
          oneOf [all [words [text "change", text "reset", text "modify", text "update", text "set"],
              among (text "_-"), words PASSWORDS],
            all [words PASSWORDS, among (text "_-"),
              words [text "change", text "reset", text "modify"]]],
          oneOf [all [words [text "修改", text "重置"], lit (text "密码")],
            all [lit (text "密码"), words [text "修改", text "重置"]], lit (text "改密")]]⟩,
    ⟨.businessContactRebind, text "danger set: a request rebinds an account phone number or email",
      REAL_TARGET_OBJECTIVES, fun view _ => anyText L view
        [near REBINDS 24 [text "phone", text "mobile", text "email", text "mail"],
          near [text "phone", text "mobile", text "email"] 16 REBINDS,
          oneOf [lit (text "换绑"), lit (text "改绑"),
            all [words [text "解绑", text "绑定"], words [text "手机", text "邮箱"]],
            all [words [text "手机", text "邮箱"], opt (lit (text "号")),
              words [text "换绑", text "解绑"]]]]⟩,
    ⟨.businessPaymentMove,
      text "danger set: a request moves, refunds, or transfers money on a live business system",
      REAL_TARGET_OBJECTIVES, fun view _ => anyText L view
        [all [b, words [text "refund", text "withdraw", text "remit", text "payout"], b],
          all [b, lit (text "transfer"), b, upTo 24 any, b,
            words [text "money", text "amount", text "balance", text "account", text "payment",
              text "to account", text "资金", text "金额", text "账户"]],
          words [text "转账", text "退款", text "提现", text "汇款", text "打款"],
          near [text "pay", text "order", text "balance", text "account"] 16
            [text "refund", text "transfer"]]⟩,
    ⟨.businessMessagingBomb,
      text "danger set: a request floods SMS, email, or phone calls at a live target",
      REAL_TARGET_OBJECTIVES, fun view _ => anyText L view
        [near [text "sms", text "email", text "mail", text "notify"] 24 [text "bomb", text "flood"],
          near [text "bomb", text "flood"] 24 [text "sms", text "email", text "mail"],
          oneOf [all [words [text "短信", text "邮件", text "电话"], words [text "轰炸", text "洪水"]],
            lit (text "呼死你")]]⟩]

/-! ### Word lists -/

/-- `[-_.]?`. -/
def joint : Pattern := opt (among (text "-_."))

def HUGE_WORDLIST_MARKERS : List Pattern :=
  [lit (text "rockyou"), lit (text "seclists"),
    all [lit (text "darkwe"), opt (lit (text "b")), lit (text "ll")],
    all [lit (text "probable"), joint, lit (text "password"), opt (lit (text "s"))],
    all [lit (text "collection"), joint, lit (text "list")],
    all [b, lit (text "combo"), joint, lit (text "list")],
    all [lit (text "backup"), joint, lit (text "pass")],
    lit (text "brutescene"),
    all [lit (text "skullbre"), opt (lit (text "a")), lit (text "ker"), opt (lit (text "s"))],
    all [lit (text "rootkit"), joint, lit (text "pass")],
    all [lit (text "10"), joint,
      oneOf [lit (text "million"), all [lit (text "m"), upTo 3 (one isWord)]],
      opt (lit (text ".")), words [text "txt", text "lst", text "gz"]],
    all [lit (text "top"), joint, words [text "1000", text "1k", text "10k", text "100k", text "1m",
      text "10m", text "100m", text "1mil", text "10mil"]],
    all [oneOf [start, among (text "/\\")], lit (text "wordlist"), opt (lit (text "s")),
      oneOf [among (text "/\\"), stop]],
    all [lit (text "/usr/share/"), oneOf [all [lit (text "wordlist"), opt (lit (text "s"))],
        all [lit (text "rocktar"), opt (lit (text "r"))]]]]

/-- `--word-?list`. -/
def wordlistFlag : Pattern := all [lit (text "--word"), opt (lit (text "-")), lit (text "list")]

/-- The walk of `wordlistValue`. -/
def wordlistLoop : List Text → Option Text
  | [] => none
  | token :: rest =>
    if token = text "-w" || token = text "--wordlist" || token = text "--word-list" then rest.head?
    else if (all [start, wordlistFlag, lit (text "=")]).test token ||
        (ignoreCase (all [start, lit (text "-w=")])).test token then
      some (token.drop (((indexOf token (text "=")).map (· + 1)).getD 0))
    else wordlistLoop rest

def wordlistValue (command : TgSecCommandGroup) : Option Text := wordlistLoop command.tokens

def WORDLIST_RULES : List DangerRule :=
  [⟨.wordlistHuge, text "danger set: a public oversized wordlist — a budget and pacing guardrail, not a safety boundary",
    ALL_OBJECTIVES, fun view _ =>
      (view.commands.any fun command => (wordlistValue command).any fun value =>
        HUGE_WORDLIST_MARKERS.any fun marker => marker.test value) ||
      anyText L view (HUGE_WORDLIST_MARKERS.map fun marker =>
        ignoreCase (all [oneOf [lit (text "-w"), wordlistFlag],
          one (fun c => c == unit '=' || isSpace c), star (one fun c => !isSpace c), marker]))⟩]

def BRUTEFORCE_RULES : List DangerRule :=
  [⟨.bruteforceHashcat,
      text "danger set (CTF): hashcat cracking is delegated to platform pacing, not run bare by the agent",
      CTF_OBJECTIVES, fun view _ => view.commands.any fun command => command.head = text "hashcat"⟩,
    ⟨.bruteforceJohnWordlist,
      text "danger set (CTF): john with a wordlist is delegated to platform pacing, not run bare by the agent",
      CTF_OBJECTIVES, fun view _ => view.commands.any fun command => command.head = text "john" &&
        (command.tokens.drop 1).any fun token =>
          (all [start, oneOf [lit (text "-w"), wordlistFlag]]).test token⟩]

/-! ### The evaluator -/

/-- `DANGER_RULES`, in evaluation order. -/
def DANGER_RULES : List DangerRule :=
  textRules L SQL_DESTRUCTIVE ++ textRules L TOOL_DESTRUCTIVE ++ PERSISTENCE_RULES L ++
    CRITICAL_PATH_REMOVAL ++ BUSINESS_RULES L ++ WORDLIST_RULES L ++ BRUTEFORCE_RULES

def createTgSecDangerEvaluator (objective : TgSecObjective) (request : TgSecRequest) :
    TgSecDangerHit :=
  let armed := (DANGER_RULES L).filter fun rule => rule.objectives.contains objective
  match armed.find? fun rule => rule.matchesView (scanTextSurface L request) request.toolName with
  | some rule => ⟨true, some rule.id.name, some rule.reason⟩
  | none => ⟨false, none, none⟩

/-! ### More to look at -/

/-- A view within another. -/
structure TgSecTextSurface.Within (view other : TgSecTextSurface) : Prop where
  strings : view.strings ⊆ other.strings
  commands : view.commands ⊆ other.commands

/-- A rule that goes on to hit. -/
def DangerRule.Monotone (rule : DangerRule) : Prop :=
  ∀ ⦃view other : TgSecTextSurface⦄, view.Within other → ∀ toolName,
    rule.matchesView view toolName = true → rule.matchesView other toolName = true

theorem any_mono {Item : Type*} {few many : List Item} {test : Item → Bool} (within : few ⊆ many)
    (hit : few.any test = true) : many.any test = true := by
  rw [List.any_eq_true] at hit ⊢
  obtain ⟨item, isIn, passes⟩ := hit
  exact ⟨item, within isIn, passes⟩

theorem or_mono {first second third fourth : Bool} (left : first = true → third = true)
    (right : second = true → fourth = true) (hit : (first || second) = true) :
    (third || fourth) = true := by
  rw [Bool.or_eq_true] at hit ⊢
  exact hit.imp left right

theorem and_mono {first second third : Bool} (right : second = true → third = true)
    (hit : (first && second) = true) : (first && third) = true := by
  rw [Bool.and_eq_true] at hit ⊢
  exact hit.imp_right right

theorem anyText_mono {view other : TgSecTextSurface} (within : view.Within other)
    (patterns : List Pattern) : anyText L view patterns = true → anyText L other patterns = true :=
  any_mono within.strings

theorem textRules_monotone (table : List (TgSecDangerRuleId × List Pattern × Text)) :
    ∀ rule ∈ textRules L table, rule.Monotone := by
  intro rule isIn view other within toolName
  obtain ⟨row, -, rfl⟩ := List.mem_map.mp isIn
  exact anyText_mono L within row.2.1

theorem persistenceRules_monotone : ∀ rule ∈ PERSISTENCE_RULES L, rule.Monotone := by
  unfold PERSISTENCE_RULES
  simp only [List.forall_mem_cons, List.not_mem_nil, false_imp_iff, implies_true, and_true]
  refine ⟨?_, ?_, ?_, ?_, ?_⟩ <;> intro view other within toolName
  · exact any_mono within.commands
  · exact any_mono within.commands
  · exact or_mono (anyText_mono L within _) (and_mono (any_mono within.strings))
  · exact anyText_mono L within _
  · exact or_mono (anyText_mono L within _) (and_mono (any_mono within.strings))

theorem businessRules_monotone : ∀ rule ∈ BUSINESS_RULES L, rule.Monotone := by
  unfold BUSINESS_RULES
  simp only [List.forall_mem_cons, List.not_mem_nil, false_imp_iff, implies_true, and_true]
  refine ⟨?_, ?_, ?_, ?_⟩ <;> exact fun _ _ within _ => anyText_mono L within _

/-- **A rule that hits goes on to hit when strings and commands are added.** -/
theorem DangerRule.monotone : ∀ rule ∈ DANGER_RULES L, rule.Monotone := by
  unfold DANGER_RULES
  simp only [List.forall_mem_append]
  refine ⟨⟨⟨⟨⟨⟨textRules_monotone L _, textRules_monotone L _⟩, persistenceRules_monotone L⟩, ?_⟩,
    businessRules_monotone L⟩, ?_⟩, ?_⟩
  · exact List.forall_mem_singleton.mpr fun _ _ within _ => any_mono within.commands
  · exact List.forall_mem_singleton.mpr fun _ _ within _ =>
      or_mono (any_mono within.commands) (anyText_mono L within _)
  · unfold BRUTEFORCE_RULES
    simp only [List.forall_mem_cons, List.not_mem_nil, false_imp_iff, implies_true, and_true]
    exact ⟨fun _ _ within _ => any_mono within.commands, fun _ _ within _ => any_mono within.commands⟩

/-- **There is a hit when some rule that is armed hits.** -/
theorem createTgSecDangerEvaluator_hit (objective : TgSecObjective) (request : TgSecRequest) :
    (createTgSecDangerEvaluator L objective request).hit = true ↔
      ∃ rule ∈ DANGER_RULES L, objective ∈ rule.objectives ∧
        rule.matchesView (scanTextSurface L request) request.toolName = true := by
  have found := @List.find?_isSome _ ((DANGER_RULES L).filter fun rule =>
    rule.objectives.contains objective) fun rule =>
      rule.matchesView (scanTextSurface L request) request.toolName
  simp only [List.mem_filter, List.contains_iff_mem, and_assoc] at found
  rw [← found]
  unfold createTgSecDangerEvaluator
  dsimp only
  cases ((DANGER_RULES L).filter fun rule => rule.objectives.contains objective).find? fun rule =>
    rule.matchesView (scanTextSurface L request) request.toolName <;> simp

end Rules

example : (twoWords (text "delete") (text "from")).test (text "delete from t") = true := by decide

end TianGong.SecGuard
