import BoostIrc.Parser

/-!
# The IRC Client

The two clients of the program, `irc_client` and the `twitch_client` derived from it: what
they send (`IrcClient.send` and the command methods over it), how a parsed message is
dispatched to a handler (`IrcClient.message`, `IrcClient.dispatch`), and what the handlers
do (`Handlers`).

The virtual methods are the fields of a record, and a call of one is a value of `Call`, so
that dispatching a message and carrying the call out can be told apart. Handlers act on
the outside through `Effect`s, in order: a line handed to `async_write` on the IRC socket,
a text frame handed to the websocket server, an HTTP request started, a line logged on
standard output.
-/

namespace BoostIrc

/-- What a handler does to the outside. -/
inductive Effect where
  | line (text : Bytes)
  | frame (payload : Bytes)
  | fetch (host path : Bytes)
  | log (text : Bytes)
  deriving DecidableEq, Repr

/-- The lines written to the IRC socket. -/
def Effect.lines (effects : List Effect) : List Bytes :=
  effects.filterMap fun
    | .line text => some text
    | _ => none

/-- The payloads of the frames sent to the browser. -/
def Effect.frames (effects : List Effect) : List Bytes :=
  effects.filterMap fun
    | .frame payload => some payload
    | _ => none

/-- A call of one of the virtual methods that handle a message, with its arguments. -/
inductive Call where
  | reply (code : ℤ)
  | privmsg (msgtarget text : Bytes)
  | ping (server server2 : Bytes)
  | join (channels keys : List Bytes)
  deriving DecidableEq, Repr

/-- How `message` deals with a message: it makes a call, does nothing, or does nothing and
asks for the message to be logged. -/
inductive Dispatch where
  | call (c : Call)
  | silent
  | unhandled
  deriving DecidableEq, Repr

/-- The **virtual methods** that handle messages. `reply` also says whether the message is
to be logged. -/
structure Handlers where
  reply : Message → ℤ → List Effect × Bool
  privmsg : Message → Bytes → Bytes → List Effect
  ping : Message → Bytes → Bytes → List Effect
  join : Message → List Bytes → List Bytes → List Effect

/-- Carry out a call, with the answer to whether the message is to be logged. -/
def Handlers.invoke (h : Handlers) (msg : Message) : Call → List Effect × Bool
  | .reply code => h.reply msg code
  | .privmsg msgtarget text => (h.privmsg msg msgtarget text, false)
  | .ping server server2 => (h.ping msg server server2, false)
  | .join channels keys => (h.join msg channels keys, false)

namespace IrcClient

/-! ### Sending -/

/-- `send(raw)`: the line goes to `async_write` with its terminator. -/
def sendRaw (raw : Bytes) : List Effect :=
  [.line (raw ++ crlf)]

/-- `send(cmd, vec)`: the command and its arguments, joined with spaces. -/
def send (cmd : Bytes) (vec : List Bytes) : List Effect :=
  sendRaw (cmd ++ [SP] ++ [SP].intercalate vec)

def pass (password : Bytes) : List Effect :=
  send (ascii "PASS") [password]

def nick (nickname : Bytes) : List Effect :=
  send (ascii "NICK") [nickname]

def quit (quitMessage : Bytes) : List Effect :=
  send (ascii "QUIT") [quitMessage]

/-- `join(channels, keys)` on strings; the keys default to none. -/
def join (channels : Bytes) (keys : Bytes := []) : List Effect :=
  send (ascii "JOIN") [channels, keys]

/-- `join(channels, keys)` on lists. -/
def joinAll (channels keys : List Bytes) : List Effect :=
  join ([COMMA].intercalate channels) ([COMMA].intercalate keys)

def part (channels partMessage : Bytes) : List Effect :=
  send (ascii "PART") [channels, partMessage]

def privmsg (msgtarget textToBeSent : Bytes) : List Effect :=
  send (ascii "PRIVMSG") [msgtarget, COLON :: textToBeSent]

def ping (server : Bytes) (server2 : Bytes := []) : List Effect :=
  send (ascii "PING") [server, server2]

def pong (server : Bytes) (server2 : Bytes := []) : List Effect :=
  send (ascii "PONG") [server, server2]

/-- `connected()`: log in. -/
def connected (mPass mNick : Bytes) : List Effect :=
  pass mPass ++ nick mNick

/-! ### Dispatching -/

/-- The parameter `i` split at its commas, or no strings where there is no such parameter. -/
def splitParam (params : List Bytes) (i : ℕ) : Except Fault (List Bytes) :=
  if i < params.length then (at? params i).map fun x => x.splitOn COMMA else .ok []

/-- `message(msg)`: a nested switch on the first two bytes of the command. Past the end of
a string `operator[]` gives a zero byte; past the end of the parameters the access is
undefined. -/
def message (msg : Message) : Except Fault Dispatch :=
  if msg.command.getD 0 0 = 0x50 then        -- 'P'
    if msg.command.getD 1 0 = 0x52 then      -- 'R': PRIVMSG
      do
        let msgtarget ← at? msg.params 0
        let text ← at? msg.params 1
        return .call (.privmsg msgtarget text)
    else if msg.command.getD 1 0 = 0x49 then -- 'I': PING
      if msg.params.length = 1 then
        do return .call (.ping (← at? msg.params 0) [])
      else if 1 < msg.params.length then
        do return .call (.ping (← at? msg.params 0) (← at? msg.params 1))
      else
        .ok .silent
    else
      .ok .unhandled
  else if msg.command.getD 0 0 = 0x4A then   -- 'J': JOIN
    do
      let channels ← splitParam msg.params 0
      let keys ← splitParam msg.params 1
      return .call (.join channels keys)
  else
    .ok .unhandled

/-- The call that `read(msg)` makes: a command that `stoi` accepts is a numeric reply; only
`invalid_argument` is caught, and then `message` decides. -/
def dispatch (msg : Message) : Except Fault Dispatch :=
  match stoi msg.command with
  | .ok code => .ok (.call (.reply code))
  | .error .invalidArgument => message msg
  | .error e => .error e

/-- The log entry of a message. -/
def logRaw (msg : Message) : Effect :=
  .log (ascii "> " ++ msg.raw ++ [LF])

/-- **`read(msg)`**: dispatch a message, carry out the call, and log if asked to. -/
def read (h : Handlers) (msg : Message) : Except Fault (List Effect) :=
  (dispatch msg).map fun
    | .call c => (h.invoke msg c).1 ++ if (h.invoke msg c).2 then [logRaw msg] else []
    | .silent => []
    | .unhandled => [logRaw msg]

/-- `read(line)`: parse a line and dispatch it. -/
def readLine (h : Handlers) (line : Bytes) : Except Fault (List Effect) :=
  read h (Message.ofRaw line)

/-! ### The handlers -/

/-- The handlers of `irc_client` itself. -/
def handlers : Handlers where
  reply _ _ := ([], true)
  privmsg msg msgtarget text :=
    [.log (msgtarget ++ ascii "> " ++ msg.nickname ++ ascii ": " ++ text ++ [LF])]
  ping _ server server2 := pong server server2
  join msg channels _ :=
    [.log (msg.nickname ++ ascii " joined " ++ [COMMA].intercalate channels ++ [LF])]

end IrcClient

namespace TwitchClient

/-- `reply(msg, code)`: the greeting is ignored, the end of the message of the day makes
the client ask for the capabilities and the chatters and join its channel. -/
def reply (channel : Bytes) (code : ℤ) : List Effect × Bool :=
  if code ∈ [1, 2, 3, 4, 375, 372] then
    ([], false)
  else if code = 376 then
    (IrcClient.sendRaw (ascii "CAP REQ :twitch.tv/tags") ++
      IrcClient.sendRaw (ascii "CAP REQ :twitch.tv/membership") ++
      IrcClient.sendRaw (ascii "CAP REQ :twitch.tv/commands") ++
      [.fetch (ascii "tmi.twitch.tv") (ascii "/group/user/" ++ channel ++ ascii "/chatters")] ++
      IrcClient.join (ascii "#" ++ channel), false)
  else
    ([], true)

/-- The handlers of a `twitch_client` whose websocket was opened for `channel`: chat text is
relayed to the browser, with a line feed after it. -/
def handlers (channel : Bytes) : Handlers :=
  { IrcClient.handlers with
    reply := fun _ code => reply channel code
    privmsg := fun msg msgtarget text =>
      IrcClient.handlers.privmsg msg msgtarget text ++ [.frame (text ++ [LF])] }

end TwitchClient

end BoostIrc
