/-
**Command text: tokens, streams and the two views of a request.**

`command-text.ts`. A command text is split into tokens, some at a command position; wrapper prefixes
are passed over; the bodies of `sh -c` are tokenized in turn. The connection-target view reads hosts
from the tokens, and the text-scan view splits them into commands.

Argument trees are `Json Unit`: the guard looks at content only.
-/

import TianGong.Chord.Json
import TianGong.SecGuard.Patterns

namespace TianGong.SecGuard

open TianGong.Json

/-- A call as the guard sees it. -/
structure TgSecRequest where
  toolName : Text
  resource : Text
  arguments : Json Unit

structure TgSecToken where
  text : Text
  commandPosition : Bool
  deriving DecidableEq

inductive TgSecTargetEvidence where
  | strong | weak
  deriving DecidableEq

def TgSecTargetEvidence.name : TgSecTargetEvidence → Text
  | .strong => text "strong"
  | .weak => text "weak"

/-! ### The tables -/

inductive ParameterRole where
  | commandText | declaredTarget | detail
  deriving DecidableEq

def TARGET_VALUE_PARAMETERS : List Text :=
  ["url", "uri", "urls", "uris", "host", "hosts", "hostname", "hostnames", "target", "targets",
    "domain", "domains", "endpoint", "endpoints", "address", "addresses", "addr", "ip", "dest",
    "destination"].map text

def COMMAND_TEXT_PARAMETERS : List Text :=
  ["command", "commands", "cmd", "command_line", "commandline", "shell", "shell_command",
    "script", "scripts"].map text

def DETAIL_PARAMETERS : List Text :=
  ["content", "contents", "text", "body", "file_path", "filepath", "path", "paths", "pattern",
    "query", "note", "notes", "message", "description"].map text

def TG_SEC_SUBCOMMAND_DEPTH_LIMIT : Nat := 2

def SUBCOMMAND_SHELLS : List Text :=
  ["sh", "bash", "zsh", "dash", "ksh"].map text

def DATA_VALUE_FLAGS : List Text :=
  ["-d", "--data", "--data-raw", "--data-binary", "--data-ascii", "--data-urlencode",
    "--form-string", "-F", "--form", "-H", "--header", "-b", "--cookie", "--cookie-jar", "-A",
    "--user-agent", "-e", "--referer", "--json", "--url-query", "--mail-from", "--mail-rcpt",
    "--aws-sigv4", "--oauth2-bearer", "-x", "--proxy", "--socks5", "--socks5-hostname", "-o",
    "-D", "-L", "-R"].map text

def DATA_BOOLEAN_FLAGS : List Text :=
  ["-L", "-R"].map text

def TARGET_VALUE_FLAGS : List Text :=
  ["-u", "--url", "--host"].map text

def FILE_SUFFIXES : List Text :=
  ["ts", "tsx", "js", "jsx", "mjs", "cjs", "json", "md", "txt", "log", "lock", "csv", "tsv",
    "xml", "yaml", "yml", "toml", "ini", "conf", "cfg", "env", "html", "htm", "css", "sql", "sh",
    "bash", "zsh", "fish", "ps1", "bat", "py", "rb", "pl", "php", "java", "kt", "swift", "go",
    "rs", "cpp", "cc", "cxx", "hpp", "cs", "mm", "exe", "dll", "so", "dylib", "lib", "class",
    "jar", "war", "apk", "wasm", "deb", "rpm", "pkg", "zip", "tar", "gz", "tgz", "bz2", "xz",
    "zst", "rar", "iso", "img", "png", "jpg", "jpeg", "gif", "bmp", "svg", "webp", "ico", "mp3",
    "mp4", "avi", "mov", "wav", "pdf", "doc", "docx", "xls", "xlsx", "ppt", "pptx", "key", "pem",
    "crt", "cer", "bak", "tmp", "swp", "orig"].map text

def WRAPPER_COMMANDS : List Text :=
  ["env", "sudo", "nohup", "stdbuf", "nice", "setsid", "time", "proxychains", "proxychains4",
    "sshpass"].map text

def TIMEOUT_COMMAND : Text := text "timeout"

/-! ### Tokens -/

def isSeparator (c : UInt16) : Bool := c == unit ';' || c == unit '|' || c == unit '&' || c == 10

def isQuote (c : UInt16) : Bool := c == unit '\'' || c == unit '"'

/-- The inner loop of `tokenize`: one word, from inside a quote or from outside of any, and the text
after it. -/
def word : Option UInt16 → Text → Text × Text
  | none, [] => ([], [])
  | none, c :: rest =>
    if isQuote c then word (some c) rest
    else if c = unit '\\' then
      match rest with
      | [] => ([c], [])
      | x :: rest' => (x :: (word none rest').1, (word none rest').2)
    else if c = unit '$' ∧ rest.head? = some (unit '(') then ([], c :: rest)
    else if isSpace c || isSeparator c || c == unit ')' then ([], c :: rest)
    else (c :: (word none rest).1, (word none rest).2)
  | some _, [] => ([], [])
  | some quote, c :: rest =>
    if c = quote then word none rest
    else if quote = unit '"' ∧ c = unit '\\' then
      match rest with
      | [] => ([c], [])
      | x :: rest' => (x :: (word (some quote) rest').1, (word (some quote) rest').2)
    else (c :: (word (some quote) rest).1, (word (some quote) rest).2)

theorem word_length (quote : Option UInt16) (t : Text) : (word quote t).2.length ≤ t.length := by
  fun_induction word quote t <;> simp_all <;> omega

/-- A unit that ends no word is read. -/
theorem word_progress {c : UInt16} {rest : Text}
    (opens : ¬(c = unit '$' ∧ rest.head? = some (unit '(')))
    (plain : (isSpace c || isSeparator c || c == unit ')') = false) :
    (word none (c :: rest)).2.length ≤ rest.length := by
  rw [word.eq_def]
  dsimp only
  rw [if_neg (by simpa using plain : ¬(isSpace c || isSeparator c || c == unit ')') = true)]
  split
  · exact word_length _ _
  · split
    · cases rest with
      | nil => simp
      | cons x rest' =>
        have shorter := word_length none rest'
        simp only [List.length_cons]
        omega
    · exact word_length _ _

/-- The outer loop of `tokenize`. `fuel` bounds the number of turns; the length of the text is
enough. -/
def tokenizeLoop : Nat → Bool → Text → List TgSecToken
  | 0, _, _ => []
  | _ + 1, _, [] => []
  | fuel + 1, atCommandPosition, c :: rest =>
    if isSeparator c then
      if (c == unit '|' || c == unit '&') && rest.head? == some c then
        tokenizeLoop fuel true (rest.drop 1)
      else tokenizeLoop fuel true rest
    else if isSpace c then tokenizeLoop fuel atCommandPosition rest
    else if c = unit '$' ∧ rest.head? = some (unit '(') then tokenizeLoop fuel true (rest.drop 1)
    else if c = unit '(' then tokenizeLoop fuel true rest
    else if c = unit ')' then tokenizeLoop fuel atCommandPosition rest
    else ⟨(word none (c :: rest)).1, atCommandPosition⟩ ::
      tokenizeLoop fuel false (word none (c :: rest)).2

def tokenize (t : Text) : List TgSecToken := tokenizeLoop t.length true t

def assignment : Text → Bool
  | [] => false
  | c :: rest => (isAlpha c || c == unit '_') && (rest.dropWhile isWord).head? == some (unit '=')

/-- A wrapper that consumes itself only. -/
def isWrapper (t : Text) : Bool := WRAPPER_COMMANDS.contains t || assignment t

/-- How far the walk over wrappers goes from a token. A `timeout` takes two steps, past the end of the
tokens if it is the last one. -/
def wrapperRun : List TgSecToken → Nat
  | [] => 0
  | token :: rest =>
    if token.text = TIMEOUT_COMMAND then
      match rest with
      | [] => 2
      | _ :: rest' => wrapperRun rest' + 2
    else if isWrapper token.text then wrapperRun rest + 1
    else 0

/-- The loop of `withWrappersSkipped`, from an index on. -/
def skipLoop : Nat → Nat → List TgSecToken → List TgSecToken
  | 0, _, out => out
  | count + 1, i, out =>
    let j := i + wrapperRun (out.drop i)
    skipLoop count (i + 1) <|
      if out[i]?.any TgSecToken.commandPosition && j > i then
        out.modify j fun token => { token with commandPosition := true }
      else out

def withWrappersSkipped (tokens : List TgSecToken) : List TgSecToken :=
  skipLoop tokens.length 0 tokens

/-! ### Streams -/

/-- A cluster of short flags with a `c`. -/
def carriesCommand (t : Text) : Bool :=
  t.head? == some (unit '-') && t.tail.all isLower && t.tail.contains (unit 'c')

/-- The walk of `subcommandShellBody` over the tokens after the shell. -/
def subcommandShellBody (sawCommandFlag : Bool) : List TgSecToken → Option Text
  | [] => none
  | token :: rest =>
    if !startsWith token.text (text "-") then
      if sawCommandFlag then some token.text else none
    else if startsWith token.text (text "--") then
      if token.text.contains (unit '=') then subcommandShellBody sawCommandFlag rest
      else match rest with
        | [] => none
        | value :: rest' =>
          if startsWith value.text (text "-") then subcommandShellBody sawCommandFlag (value :: rest')
          else subcommandShellBody sawCommandFlag rest'
    else subcommandShellBody (sawCommandFlag || carriesCommand token.text) rest

theorem shellBody_word {armed : Bool} {token : TgSecToken} (rest : List TgSecToken)
    (word : (!startsWith token.text (text "-")) = true) :
    subcommandShellBody armed (token :: rest) = if armed then some token.text else none := by
  rw [subcommandShellBody.eq_def]
  dsimp only
  rw [if_pos word]

/-- What a shell takes for its body is a token that is no flag. -/
theorem subcommandShellBody_mem {armed : Bool} {stream : List TgSecToken} {body : Text}
    (found : subcommandShellBody armed stream = some body) :
    ∃ token ∈ stream, token.text = body ∧ startsWith body (text "-") = false := by
  fun_induction subcommandShellBody armed stream with
  | case1 => cases found
  | case2 token rest word =>
    cases found
    exact ⟨token, List.mem_cons_self, rfl, by simpa using word⟩
  | case3 => cases found
  | case4 armed token rest flag long assigned ih
  | case6 armed token flag long assigned next rest another ih
  | case8 armed token rest flag long ih =>
    obtain ⟨value, inside, same⟩ := ih found
    exact ⟨value, List.mem_cons_of_mem _ inside, same⟩
  | case5 => cases found
  | case7 armed token flag long assigned next rest another ih =>
    obtain ⟨value, inside, same⟩ := ih found
    exact ⟨value, List.mem_cons_of_mem _ (List.mem_cons_of_mem _ inside), same⟩

/-- The bodies of the shells at command positions, the last token apart. -/
def shellBodies : List TgSecToken → List Text
  | [] => []
  | [_] => []
  | token :: next :: rest =>
    (if token.commandPosition && SUBCOMMAND_SHELLS.contains token.text then
      (subcommandShellBody false (next :: rest)).toList else []) ++ shellBodies (next :: rest)

/-- `pushStreams`, with the depth that is left. -/
def pushStreams : Nat → Text → List (List TgSecToken)
  | 0, t => [withWrappersSkipped (tokenize t)]
  | depth + 1, t =>
    withWrappersSkipped (tokenize t) ::
      (shellBodies (withWrappersSkipped (tokenize t))).flatMap (pushStreams depth)

section Views

variable (L : LowerCase)

def parameterRole (key : Text) : ParameterRole :=
  if TARGET_VALUE_PARAMETERS.contains (L.lower key) then .declaredTarget
  else if COMMAND_TEXT_PARAMETERS.contains (L.lower key) then .commandText
  else if DETAIL_PARAMETERS.contains (L.lower key) then .detail
  else .commandText

mutual
/-- `collectValues`: every string, with the role of its nearest key. -/
def collectValues (role : ParameterRole) : Json Unit → List (Text × ParameterRole)
  | .string s => [(s, role)]
  | .array _ items => collectItems role items
  | .object _ fields => collectFields fields
  | _ => []

def collectItems (role : ParameterRole) : List (Json Unit) → List (Text × ParameterRole)
  | [] => []
  | x :: xs => collectValues role x ++ collectItems role xs

def collectFields : List (Text × Json Unit) → List (Text × ParameterRole)
  | [] => []
  | (key, x) :: xs => collectValues (parameterRole L key) x ++ collectFields xs
end

/-- The surface matching works on. A target stream comes with whether its parameter's name declares a
target. -/
structure TgSecCommandSurface where
  values : List Text
  streams : List (List TgSecToken)
  targetStreams : List (List TgSecToken × Bool)

/-- The target streams of one value. -/
def valueTargetStreams : Text × ParameterRole → List (List TgSecToken × Bool)
  | (_, .detail) => []
  | (t, role) =>
    match pushStreams TG_SEC_SUBCOMMAND_DEPTH_LIMIT t with
    | [] => []
    | tokens :: bodies => (tokens, role = .declaredTarget) :: bodies.map (·, false)

def extractCommandSurface (request : TgSecRequest) : TgSecCommandSurface :=
  let collected := collectValues L .commandText request.arguments
  { values := collected.map Prod.fst
    streams := collected.flatMap fun entry => pushStreams TG_SEC_SUBCOMMAND_DEPTH_LIMIT entry.1
    targetStreams := collected.flatMap valueTargetStreams }

/-! ### Connection targets -/

/-- `splitCommands`: every token at a command position starts a new command. -/
def splitCommands : List TgSecToken → List (List TgSecToken)
  | [] => []
  | token :: rest =>
    match rest, splitCommands rest with
    | next :: _, group :: groups =>
      if next.commandPosition then [token] :: group :: groups else (token :: group) :: groups
    | _, groups => [token] :: groups

def authorityOf (url : Text) : Text :=
  let rest := url.drop (((indexOf url (text "://")).map (· + 3)).getD 2)
  let authority := rest.takeWhile fun c => !(c == unit '/' || c == unit '?' || c == unit '#')
  let hostPart := afterLast (unit '@') authority
  if startsWith hostPart (text "[") then (hostPart.drop 1).takeWhile (· ≠ unit ']')
  else beforeLast (unit ':') hostPart

/-- What `addTarget` finds in a token, if anything. -/
def targetOf (t : Text) (strong : Bool) : Option (Text × TgSecTargetEvidence) :=
  let token := L.lower t
  let tier := if strong then .strong else .weak
  if token = [] then none
  else if urlHead token then
    if authorityOf token = [] then none else some (authorityOf token, .strong)
  else if bareIpv4 token || token = text "localhost" then some (token, tier)
  else match bareIpv6Host token with
    | some ipv6 => some (ipv6, tier)
    | none =>
      if bareDomain token && !FILE_SUFFIXES.contains (afterLast (unit '.') token) then
        some (token, tier)
      else none

/-- Hosts with their evidence. -/
abbrev Targets := List (Text × TgSecTargetEvidence)

def recordTarget (out : Targets) (host : Text) (evidence : TgSecTargetEvidence) : Targets :=
  if Assoc.get host out = some .strong then out else Assoc.set host evidence out

def addTarget (t : Text) (strong : Bool) (out : Targets) : Targets :=
  match targetOf L t strong with
  | some (host, evidence) => recordTarget out host evidence
  | none => out

/-- A long flag with its value attached: the flag and the place of the sign, in the lowered text. -/
def attachedFlag (lowered : Text) : Option (Text × Nat) :=
  if startsWith lowered (text "--") then
    match indexOf lowered (text "=") with
    | some eq => if eq > 2 then some (lowered.take eq, eq) else none
    | none => none
  else none

/-- `scanCommand`: the flags that take a target, the attached flags, the data flags, and the rest. -/
def scanCommand (declaredTarget : Bool) : List TgSecToken → Targets → Targets
  | [], out => out
  | token :: rest, out =>
    if TARGET_VALUE_FLAGS.contains (L.lower token.text) then
      match rest with
      | [] => out
      | value :: rest' => scanCommand declaredTarget rest' (addTarget L value.text true out)
    else match attachedFlag (L.lower token.text) with
      | some (flag, eq) =>
        scanCommand declaredTarget rest <|
          if DATA_VALUE_FLAGS.contains flag then out
          else if TARGET_VALUE_FLAGS.contains flag then
            addTarget L (token.text.drop (eq + 1)) true out
          else out
      | none =>
        if DATA_VALUE_FLAGS.contains (L.lower token.text) then
          if DATA_BOOLEAN_FLAGS.contains (L.lower token.text) then
            scanCommand declaredTarget rest out
          else match rest with
            | [] => out
            | _ :: rest' => scanCommand declaredTarget rest' out
        else scanCommand declaredTarget rest (addTarget L token.text declaredTarget out)

def connectionTargetsFromSurface (surface : TgSecCommandSurface) : Targets :=
  surface.targetStreams.foldl (fun out stream =>
    (splitCommands stream.1).foldl (fun out command => scanCommand L stream.2 command out) out) []

def extractConnectionTargets (request : TgSecRequest) : Targets :=
  connectionTargetsFromSurface L (extractCommandSurface L request)

/-! ### The text-scan view -/

/-- A command: its lowered tokens. Its head is the first of them. -/
structure TgSecCommandGroup where
  head : Text
  tokens : List Text
  deriving DecidableEq

def toCommands (streams : List (List TgSecToken)) : List TgSecCommandGroup :=
  streams.flatMap fun stream => (splitCommands stream).map fun group =>
    let tokens := group.map fun token => L.lower token.text
    ⟨tokens.headD [], tokens⟩

structure TgSecTextSurface where
  strings : List Text
  streams : List (List TgSecToken)
  commands : List TgSecCommandGroup

def scanTextSurface (request : TgSecRequest) : TgSecTextSurface :=
  let surface := extractCommandSurface L request
  ⟨surface.values, surface.streams, toCommands L surface.streams⟩

end Views

/-- A cluster of short flags with a letter. -/
def clusterWith (letter : UInt16) (flag : Text) : Bool :=
  flag.head? == some (unit '-') && flag.tail.all isLower && flag.tail.contains letter

def hasForcedRecursiveFlags (tokens : List Text) : Bool :=
  let flags := tokens.filter fun token => startsWith token (text "-")
  let recursive := flags.any fun flag => clusterWith (unit 'r') flag || flag = text "--recursive"
  let force := flags.any fun flag => clusterWith (unit 'f') flag || flag = text "--force"
  recursive && force

def nonFlagTargets (command : TgSecCommandGroup) : List Text :=
  (command.tokens.drop 1).filter fun token => !startsWith token (text "-")

end TianGong.SecGuard
