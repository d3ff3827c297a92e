import Mnemos.Server

/-!
# Dispatch

One request of a connection: the checks in their order, queueing inside a
transaction, the call of the handler, and the messages that the connection owes
itself behind the reply.
-/

namespace Mnemos

namespace Flags

def kWrite : ℕ := 1
def kReadOnly : ℕ := 2
def kAdmin : ℕ := 4
def kNoAuth : ℕ := 8
def kFast : ℕ := 16
def kLoading : ℕ := 32
def kContainer : ℕ := 64

end Flags

inductive DataHandler where
  | set
  | get
  | getset
  | getdel
  | getex
  | setnx
  | setex
  | psetex
  | mset
  | msetnx
  | mget
  | append
  | strlen_
  | incr
  | decr
  | incrby
  | decrby
  | incrbyfloat
  | setrange
  | getrange
  | del
  | unlink
  | exists_
  | type
  | keys
  | scan
  | randomkey
  | rename
  | renamenx
  | copy
  | touch
  | expire
  | pexpire
  | expireat
  | pexpireat
  | ttl
  | pttl
  | expiretime
  | pexpiretime
  | persist
  | dbsize
  | object
  | memory
  | dump
  | restore
  | lpush
  | rpush
  | lpushx
  | rpushx
  | lpop
  | rpop
  | llen
  | lrange
  | lindex
  | lset
  | lrem
  | ltrim
  | lpos
  | rpoplpush
  | lmove
  | hset
  | hsetnx
  | hmset
  | hget
  | hmget
  | hdel
  | hlen
  | hexists
  | hstrlen
  | hkeys
  | hvals
  | hgetall
  | hincrby
  | hincrbyfloat
  | hrandfield
  | sadd
  | srem
  | scard
  | sismember
  | smismember
  | smembers
  | spop
  | srandmember
  | smove
  | sinter
  | sunion
  | sdiff
  | sinterstore
  | sunionstore
  | sdiffstore
  | sintercard
  | zadd
  | zrem
  | zscore
  | zmscore
  | zcard
  | zincrby
  | zrank
  | zrevrank
  | zrange
  | zrevrange
  | zrangebyscore
  | zrevrangebyscore
  | zcount
  | zremrangebyrank
  | zremrangebyscore
  | zpopmin
  | zpopmax
  | zrandmember
  | zrangebylex
  | zrevrangebylex
  | zlexcount
  | zremrangebylex
  | zrangestore
  | zunion
  | zinter
  | zdiff
  | zunionstore
  | zinterstore
  | zdiffstore
  | zintercard
  | zmpop
deriving DecidableEq

inductive Handler where
  | data (handler : DataHandler)
  | ping
  | echo
  | select
  | hello
  | auth
  | quit
  | reset
  | client
  | multi
  | exec
  | discard
  | watch
  | unwatch
  | subscribe
  | unsubscribe
  | psubscribe
  | punsubscribe
  | publish
  | ssubscribe
  | sunsubscribe
  | spublish
  | pubsub
  | flushdb
  | flushall
  | info
  | config
  | command
  | debug
  | time
  | lastsave
  | save
  | bgsave
  | shutdown
deriving DecidableEq

structure CommandSpec where
  name : Bytes
  handler : Handler
  /-- Number of arguments with the name; negative for at least so many. -/
  arity : ℤ
  flags : ℕ
  firstKey : ℤ
  lastKey : ℤ
  keyStep : ℤ
deriving DecidableEq

def CommandSpec.has (spec : CommandSpec) (flag : ℕ) : Bool := spec.flags/flag%2==1

def CommandSpec.isWrite (spec : CommandSpec) : Bool := spec.has Flags.kWrite

open Flags in
def table : List CommandSpec :=
  [⟨ascii "ping",.ping,-1,kFast+kNoAuth+kLoading,0,0,0⟩,
    ⟨ascii "echo",.echo,2,kFast,0,0,0⟩,
    ⟨ascii "select",.select,2,kFast+kLoading,0,0,0⟩,
    ⟨ascii "hello",.hello,-1,kFast+kNoAuth+kLoading,0,0,0⟩,
    ⟨ascii "auth",.auth,-2,kFast+kNoAuth+kLoading,0,0,0⟩,
    ⟨ascii "quit",.quit,-1,kFast+kNoAuth+kLoading,0,0,0⟩,
    ⟨ascii "reset",.reset,1,kFast+kNoAuth+kLoading,0,0,0⟩,
    ⟨ascii "client",.client,-2,kAdmin+kNoAuth+kLoading,0,0,0⟩,
    ⟨ascii "multi",.multi,1,kFast+kLoading,0,0,0⟩,
    ⟨ascii "exec",.exec,1,kLoading,0,0,0⟩,
    ⟨ascii "discard",.discard,1,kFast+kLoading,0,0,0⟩,
    ⟨ascii "watch",.watch,-2,kFast+kLoading,1,-1,1⟩,
    ⟨ascii "unwatch",.unwatch,1,kFast+kLoading,0,0,0⟩,
    ⟨ascii "subscribe",.subscribe,-2,kFast+kLoading,0,0,0⟩,
    ⟨ascii "unsubscribe",.unsubscribe,-1,kFast+kLoading,0,0,0⟩,
    ⟨ascii "psubscribe",.psubscribe,-2,kFast+kLoading,0,0,0⟩,
    ⟨ascii "punsubscribe",.punsubscribe,-1,kFast+kLoading,0,0,0⟩,
    ⟨ascii "publish",.publish,3,kFast+kLoading,0,0,0⟩,
    ⟨ascii "ssubscribe",.ssubscribe,-2,kFast+kLoading,1,-1,1⟩,
    ⟨ascii "sunsubscribe",.sunsubscribe,-1,kFast+kLoading,1,-1,1⟩,
    ⟨ascii "spublish",.spublish,3,kFast+kLoading,1,1,1⟩,
    ⟨ascii "pubsub",.pubsub,-2,kFast+kLoading+kContainer,0,0,0⟩,
    ⟨ascii "set",.data .set,-3,kWrite,1,1,1⟩,
    ⟨ascii "get",.data .get,2,kReadOnly+kFast,1,1,1⟩,
    ⟨ascii "getset",.data .getset,3,kWrite+kFast,1,1,1⟩,
    ⟨ascii "getdel",.data .getdel,2,kWrite+kFast,1,1,1⟩,
    ⟨ascii "getex",.data .getex,-2,kWrite+kFast,1,1,1⟩,
    ⟨ascii "setnx",.data .setnx,3,kWrite+kFast,1,1,1⟩,
    ⟨ascii "setex",.data .setex,4,kWrite,1,1,1⟩,
    ⟨ascii "psetex",.data .psetex,4,kWrite,1,1,1⟩,
    ⟨ascii "mset",.data .mset,-3,kWrite,1,-1,2⟩,
    ⟨ascii "msetnx",.data .msetnx,-3,kWrite,1,-1,2⟩,
    ⟨ascii "mget",.data .mget,-2,kReadOnly+kFast,1,-1,1⟩,
    ⟨ascii "append",.data .append,3,kWrite+kFast,1,1,1⟩,
    ⟨ascii "strlen",.data .strlen_,2,kReadOnly+kFast,1,1,1⟩,
    ⟨ascii "incr",.data .incr,2,kWrite+kFast,1,1,1⟩,
    ⟨ascii "decr",.data .decr,2,kWrite+kFast,1,1,1⟩,
    ⟨ascii "incrby",.data .incrby,3,kWrite+kFast,1,1,1⟩,
    ⟨ascii "decrby",.data .decrby,3,kWrite+kFast,1,1,1⟩,
    ⟨ascii "incrbyfloat",.data .incrbyfloat,3,kWrite+kFast,1,1,1⟩,
    ⟨ascii "setrange",.data .setrange,4,kWrite,1,1,1⟩,
    ⟨ascii "getrange",.data .getrange,4,kReadOnly,1,1,1⟩,
    ⟨ascii "substr",.data .getrange,4,kReadOnly,1,1,1⟩,
    ⟨ascii "del",.data .del,-2,kWrite,1,-1,1⟩,
    ⟨ascii "unlink",.data .unlink,-2,kWrite+kFast,1,-1,1⟩,
    ⟨ascii "exists",.data .exists_,-2,kReadOnly+kFast,1,-1,1⟩,
    ⟨ascii "type",.data .type,2,kReadOnly+kFast,1,1,1⟩,
    ⟨ascii "keys",.data .keys,2,kReadOnly,0,0,0⟩,
    ⟨ascii "scan",.data .scan,-2,kReadOnly,0,0,0⟩,
    ⟨ascii "randomkey",.data .randomkey,1,kReadOnly,0,0,0⟩,
    ⟨ascii "rename",.data .rename,3,kWrite,1,2,1⟩,
    ⟨ascii "renamenx",.data .renamenx,3,kWrite+kFast,1,2,1⟩,
    ⟨ascii "copy",.data .copy,-3,kWrite,1,2,1⟩,
    ⟨ascii "touch",.data .touch,-2,kReadOnly+kFast,1,-1,1⟩,
    ⟨ascii "expire",.data .expire,-3,kWrite+kFast,1,1,1⟩,
    ⟨ascii "pexpire",.data .pexpire,-3,kWrite+kFast,1,1,1⟩,
    ⟨ascii "expireat",.data .expireat,-3,kWrite+kFast,1,1,1⟩,
    ⟨ascii "pexpireat",.data .pexpireat,-3,kWrite+kFast,1,1,1⟩,
    ⟨ascii "ttl",.data .ttl,2,kReadOnly+kFast,1,1,1⟩,
    ⟨ascii "pttl",.data .pttl,2,kReadOnly+kFast,1,1,1⟩,
    ⟨ascii "expiretime",.data .expiretime,2,kReadOnly+kFast,1,1,1⟩,
    ⟨ascii "pexpiretime",.data .pexpiretime,2,kReadOnly+kFast,1,1,1⟩,
    ⟨ascii "persist",.data .persist,2,kWrite+kFast,1,1,1⟩,
    ⟨ascii "dbsize",.data .dbsize,1,kReadOnly+kFast,0,0,0⟩,
    ⟨ascii "flushdb",.flushdb,-1,kWrite,0,0,0⟩,
    ⟨ascii "flushall",.flushall,-1,kWrite,0,0,0⟩,
    ⟨ascii "info",.info,-1,kLoading+kNoAuth,0,0,0⟩,
    ⟨ascii "config",.config,-2,kAdmin+kLoading,0,0,0⟩,
    ⟨ascii "command",.command,-1,kLoading+kNoAuth,0,0,0⟩,
    ⟨ascii "object",.data .object,-2,kReadOnly,2,2,1⟩,
    ⟨ascii "memory",.data .memory,-2,kReadOnly,0,0,0⟩,
    ⟨ascii "debug",.debug,-2,kAdmin,0,0,0⟩,
    ⟨ascii "time",.time,1,kFast+kLoading,0,0,0⟩,
    ⟨ascii "lastsave",.lastsave,1,kFast+kLoading,0,0,0⟩,
    ⟨ascii "save",.save,1,kAdmin,0,0,0⟩,
    ⟨ascii "bgsave",.bgsave,-1,kAdmin,0,0,0⟩,
    ⟨ascii "dump",.data .dump,2,kReadOnly,1,1,1⟩,
    ⟨ascii "restore",.data .restore,-4,kWrite,1,1,1⟩,
    ⟨ascii "shutdown",.shutdown,-1,kAdmin+kNoAuth+kLoading,0,0,0⟩,
    ⟨ascii "lpush",.data .lpush,-3,kWrite+kFast,1,1,1⟩,
    ⟨ascii "rpush",.data .rpush,-3,kWrite+kFast,1,1,1⟩,
    ⟨ascii "lpushx",.data .lpushx,-3,kWrite+kFast,1,1,1⟩,
    ⟨ascii "rpushx",.data .rpushx,-3,kWrite+kFast,1,1,1⟩,
    ⟨ascii "lpop",.data .lpop,-2,kWrite+kFast,1,1,1⟩,
    ⟨ascii "rpop",.data .rpop,-2,kWrite+kFast,1,1,1⟩,
    ⟨ascii "llen",.data .llen,2,kReadOnly+kFast,1,1,1⟩,
    ⟨ascii "lrange",.data .lrange,4,kReadOnly,1,1,1⟩,
    ⟨ascii "lindex",.data .lindex,3,kReadOnly,1,1,1⟩,
    ⟨ascii "lset",.data .lset,4,kWrite,1,1,1⟩,
    ⟨ascii "lrem",.data .lrem,4,kWrite,1,1,1⟩,
    ⟨ascii "ltrim",.data .ltrim,4,kWrite,1,1,1⟩,
    ⟨ascii "lpos",.data .lpos,-3,kReadOnly,1,1,1⟩,
    ⟨ascii "rpoplpush",.data .rpoplpush,3,kWrite,1,2,1⟩,
    ⟨ascii "lmove",.data .lmove,5,kWrite,1,2,1⟩,
    ⟨ascii "hset",.data .hset,-4,kWrite+kFast,1,1,1⟩,
    ⟨ascii "hsetnx",.data .hsetnx,4,kWrite+kFast,1,1,1⟩,
    ⟨ascii "hmset",.data .hmset,-4,kWrite+kFast,1,1,1⟩,
    ⟨ascii "hget",.data .hget,3,kReadOnly+kFast,1,1,1⟩,
    ⟨ascii "hmget",.data .hmget,-3,kReadOnly+kFast,1,1,1⟩,
    ⟨ascii "hdel",.data .hdel,-3,kWrite+kFast,1,1,1⟩,
    ⟨ascii "hlen",.data .hlen,2,kReadOnly+kFast,1,1,1⟩,
    ⟨ascii "hexists",.data .hexists,3,kReadOnly+kFast,1,1,1⟩,
    ⟨ascii "hstrlen",.data .hstrlen,3,kReadOnly+kFast,1,1,1⟩,
    ⟨ascii "hkeys",.data .hkeys,2,kReadOnly,1,1,1⟩,
    ⟨ascii "hvals",.data .hvals,2,kReadOnly,1,1,1⟩,
    ⟨ascii "hgetall",.data .hgetall,2,kReadOnly,1,1,1⟩,
    ⟨ascii "hincrby",.data .hincrby,4,kWrite+kFast,1,1,1⟩,
    ⟨ascii "hincrbyfloat",.data .hincrbyfloat,4,kWrite+kFast,1,1,1⟩,
    ⟨ascii "hrandfield",.data .hrandfield,-2,kReadOnly,1,1,1⟩,
    ⟨ascii "sadd",.data .sadd,-3,kWrite+kFast,1,1,1⟩,
    ⟨ascii "srem",.data .srem,-3,kWrite+kFast,1,1,1⟩,
    ⟨ascii "scard",.data .scard,2,kReadOnly+kFast,1,1,1⟩,
    ⟨ascii "sismember",.data .sismember,3,kReadOnly+kFast,1,1,1⟩,
    ⟨ascii "smismember",.data .smismember,-3,kReadOnly+kFast,1,1,1⟩,
    ⟨ascii "smembers",.data .smembers,2,kReadOnly,1,1,1⟩,
    ⟨ascii "spop",.data .spop,-2,kWrite+kFast,1,1,1⟩,
    ⟨ascii "srandmember",.data .srandmember,-2,kReadOnly,1,1,1⟩,
    ⟨ascii "smove",.data .smove,4,kWrite+kFast,1,2,1⟩,
    ⟨ascii "sinter",.data .sinter,-2,kReadOnly,1,-1,1⟩,
    ⟨ascii "sunion",.data .sunion,-2,kReadOnly,1,-1,1⟩,
    ⟨ascii "sdiff",.data .sdiff,-2,kReadOnly,1,-1,1⟩,
    ⟨ascii "sinterstore",.data .sinterstore,-3,kWrite,1,-1,1⟩,
    ⟨ascii "sunionstore",.data .sunionstore,-3,kWrite,1,-1,1⟩,
    ⟨ascii "sdiffstore",.data .sdiffstore,-3,kWrite,1,-1,1⟩,
    ⟨ascii "sintercard",.data .sintercard,-3,kReadOnly,0,0,0⟩,
    ⟨ascii "zadd",.data .zadd,-4,kWrite+kFast,1,1,1⟩,
    ⟨ascii "zrem",.data .zrem,-3,kWrite+kFast,1,1,1⟩,
    ⟨ascii "zscore",.data .zscore,3,kReadOnly+kFast,1,1,1⟩,
    ⟨ascii "zmscore",.data .zmscore,-3,kReadOnly+kFast,1,1,1⟩,
    ⟨ascii "zcard",.data .zcard,2,kReadOnly+kFast,1,1,1⟩,
    ⟨ascii "zincrby",.data .zincrby,4,kWrite+kFast,1,1,1⟩,
    ⟨ascii "zrank",.data .zrank,3,kReadOnly+kFast,1,1,1⟩,
    ⟨ascii "zrevrank",.data .zrevrank,3,kReadOnly+kFast,1,1,1⟩,
    ⟨ascii "zrange",.data .zrange,-4,kReadOnly,1,1,1⟩,
    ⟨ascii "zrevrange",.data .zrevrange,-4,kReadOnly,1,1,1⟩,
    ⟨ascii "zrangebyscore",.data .zrangebyscore,-4,kReadOnly,1,1,1⟩,
    ⟨ascii "zrevrangebyscore",.data .zrevrangebyscore,-4,kReadOnly,1,1,1⟩,
    ⟨ascii "zcount",.data .zcount,4,kReadOnly+kFast,1,1,1⟩,
    ⟨ascii "zremrangebyrank",.data .zremrangebyrank,4,kWrite,1,1,1⟩,
    ⟨ascii "zremrangebyscore",.data .zremrangebyscore,4,kWrite,1,1,1⟩,
    ⟨ascii "zpopmin",.data .zpopmin,-2,kWrite+kFast,1,1,1⟩,
    ⟨ascii "zpopmax",.data .zpopmax,-2,kWrite+kFast,1,1,1⟩,
    ⟨ascii "zrandmember",.data .zrandmember,-2,kReadOnly,1,1,1⟩,
    ⟨ascii "zrangebylex",.data .zrangebylex,-4,kReadOnly,1,1,1⟩,
    ⟨ascii "zrevrangebylex",.data .zrevrangebylex,-4,kReadOnly,1,1,1⟩,
    ⟨ascii "zlexcount",.data .zlexcount,4,kReadOnly+kFast,1,1,1⟩,
    ⟨ascii "zremrangebylex",.data .zremrangebylex,4,kWrite,1,1,1⟩,
    ⟨ascii "zrangestore",.data .zrangestore,-5,kWrite,1,2,1⟩,
    ⟨ascii "zunion",.data .zunion,-3,kReadOnly,0,0,0⟩,
    ⟨ascii "zinter",.data .zinter,-3,kReadOnly,0,0,0⟩,
    ⟨ascii "zdiff",.data .zdiff,-3,kReadOnly,0,0,0⟩,
    ⟨ascii "zunionstore",.data .zunionstore,-4,kWrite,1,1,1⟩,
    ⟨ascii "zinterstore",.data .zinterstore,-4,kWrite,1,1,1⟩,
    ⟨ascii "zdiffstore",.data .zdiffstore,-4,kWrite,1,1,1⟩,
    ⟨ascii "zintercard",.data .zintercard,-3,kReadOnly,0,0,0⟩,
    ⟨ascii "zmpop",.data .zmpop,-4,kWrite,0,0,0⟩]

def lookupCommand (name : Bytes) : Option CommandSpec := table.find? (·.name==toLower name)

theorem lookupCommand_mem {name : Bytes} {spec : CommandSpec} (h : lookupCommand name=some spec) :
    spec∈table := List.mem_of_find?_eq_some h

def arityOk (spec : CommandSpec) (argc : ℕ) : Bool :=
  if 0 ≤ spec.arity then (argc : ℤ)=spec.arity else -spec.arity ≤ argc

namespace Commands

def describeCommand (spec : CommandSpec) : List Token :=
  [.arrayHeader 6,.bulk spec.name,.integer spec.arity,.arrayHeader 1,
    .simpleString (if spec.isWrite then ascii "write" else ascii "readonly"),
    .integer spec.firstKey,.integer spec.lastKey,.integer spec.keyStep]

def describeNamed (name : Bytes) : List Token :=
  match lookupCommand name with
  | none => [.nullArray]
  | some spec => describeCommand spec

def command (argv : List Bytes) : Response :=
  let sub := toUpper (arg argv 1)
  if argv.length=1 then .tokens (.arrayHeader table.length::table.flatMap describeCommand)
  else if sub=ascii "COUNT" then .integer table.length
  else if sub=ascii "DOCS" then .token (.mapHeader 0)
  else if sub=ascii "INFO" then
    .tokens (.arrayHeader (argv.length-2)::(argv.drop 2).flatMap describeNamed)
  else unknownOf "COMMAND" (arg argv 1)

end Commands

section Run

variable [Platform]

def DataHandler.run : DataHandler → List Bytes → Cmd Response
  | .set => Commands.set
  | .get => Commands.get
  | .getset => Commands.getset
  | .getdel => Commands.getdel
  | .getex => Commands.getex
  | .setnx => Commands.setnx
  | .setex => Commands.setex
  | .psetex => Commands.psetex
  | .mset => Commands.mset
  | .msetnx => Commands.msetnx
  | .mget => Commands.mget
  | .append => Commands.append
  | .strlen_ => Commands.strlen_
  | .incr => Commands.incr
  | .decr => Commands.decr
  | .incrby => Commands.incrby
  | .decrby => Commands.decrby
  | .incrbyfloat => Commands.incrbyfloat
  | .setrange => Commands.setrange
  | .getrange => Commands.getrange
  | .del => Commands.del
  | .unlink => Commands.unlink
  | .exists_ => Commands.exists_
  | .type => Commands.type
  | .keys => Commands.keys
  | .scan => Commands.scan
  | .randomkey => Commands.randomkey
  | .rename => Commands.rename
  | .renamenx => Commands.renamenx
  | .copy => Commands.copy
  | .touch => Commands.touch
  | .expire => Commands.expire
  | .pexpire => Commands.pexpire
  | .expireat => Commands.expireat
  | .pexpireat => Commands.pexpireat
  | .ttl => Commands.ttl
  | .pttl => Commands.pttl
  | .expiretime => Commands.expiretime
  | .pexpiretime => Commands.pexpiretime
  | .persist => Commands.persist
  | .dbsize => Commands.dbsize
  | .object => Commands.object
  | .memory => Commands.memory
  | .dump => Commands.dump
  | .restore => Commands.restore
  | .lpush => Commands.lpush
  | .rpush => Commands.rpush
  | .lpushx => Commands.lpushx
  | .rpushx => Commands.rpushx
  | .lpop => Commands.lpop
  | .rpop => Commands.rpop
  | .llen => Commands.llen
  | .lrange => Commands.lrange
  | .lindex => Commands.lindex
  | .lset => Commands.lset
  | .lrem => Commands.lrem
  | .ltrim => Commands.ltrim
  | .lpos => Commands.lpos
  | .rpoplpush => Commands.rpoplpush
  | .lmove => Commands.lmove
  | .hset => Commands.hset
  | .hsetnx => Commands.hsetnx
  | .hmset => Commands.hmset
  | .hget => Commands.hget
  | .hmget => Commands.hmget
  | .hdel => Commands.hdel
  | .hlen => Commands.hlen
  | .hexists => Commands.hexists
  | .hstrlen => Commands.hstrlen
  | .hkeys => Commands.hkeys
  | .hvals => Commands.hvals
  | .hgetall => Commands.hgetall
  | .hincrby => Commands.hincrby
  | .hincrbyfloat => Commands.hincrbyfloat
  | .hrandfield => Commands.hrandfield
  | .sadd => Commands.sadd
  | .srem => Commands.srem
  | .scard => Commands.scard
  | .sismember => Commands.sismember
  | .smismember => Commands.smismember
  | .smembers => Commands.smembers
  | .spop => Commands.spop
  | .srandmember => Commands.srandmember
  | .smove => Commands.smove
  | .sinter => Commands.sinter
  | .sunion => Commands.sunion
  | .sdiff => Commands.sdiff
  | .sinterstore => Commands.sinterstore
  | .sunionstore => Commands.sunionstore
  | .sdiffstore => Commands.sdiffstore
  | .sintercard => Commands.sintercard
  | .zadd => Commands.zadd
  | .zrem => Commands.zrem
  | .zscore => Commands.zscore
  | .zmscore => Commands.zmscore
  | .zcard => Commands.zcard
  | .zincrby => Commands.zincrby
  | .zrank => Commands.zrank
  | .zrevrank => Commands.zrevrank
  | .zrange => Commands.zrange
  | .zrevrange => Commands.zrevrange
  | .zrangebyscore => Commands.zrangebyscore
  | .zrevrangebyscore => Commands.zrevrangebyscore
  | .zcount => Commands.zcount
  | .zremrangebyrank => Commands.zremrangebyrank
  | .zremrangebyscore => Commands.zremrangebyscore
  | .zpopmin => Commands.zpopmin
  | .zpopmax => Commands.zpopmax
  | .zrandmember => Commands.zrandmember
  | .zrangebylex => Commands.zrangebylex
  | .zrevrangebylex => Commands.zrevrangebylex
  | .zlexcount => Commands.zlexcount
  | .zremrangebylex => Commands.zremrangebylex
  | .zrangestore => Commands.zrangestore
  | .zunion => Commands.zunion
  | .zinter => Commands.zinter
  | .zdiff => Commands.zdiff
  | .zunionstore => Commands.zunionstore
  | .zinterstore => Commands.zinterstore
  | .zdiffstore => Commands.zdiffstore
  | .zintercard => Commands.zintercard
  | .zmpop => Commands.zmpop

/-- The function of a handler. The handler of `EXEC` outside a transaction refuses; inside one it
runs the queue. -/
def Handler.run : Handler → List Bytes → Act Response
  | .data handler => fun argv => Act.data (handler.run argv)
  | .ping => Commands.ping
  | .echo => Commands.echo
  | .select => Commands.select
  | .hello => Commands.hello
  | .auth => Commands.auth
  | .quit => Commands.quit
  | .reset => Commands.reset
  | .client => Commands.clientCommand
  | .multi => Commands.multi
  | .exec => fun _ => pure (.err "ERR EXEC without MULTI")
  | .discard => Commands.discard
  | .watch => Commands.watch
  | .unwatch => Commands.unwatch
  | .subscribe => Commands.subscribe
  | .unsubscribe => Commands.unsubscribe
  | .psubscribe => Commands.psubscribe
  | .punsubscribe => Commands.punsubscribe
  | .publish => Commands.publish
  | .ssubscribe => Commands.ssubscribe
  | .sunsubscribe => Commands.sunsubscribe
  | .spublish => Commands.spublish
  | .pubsub => Commands.pubsub
  | .flushdb => Commands.flushdb
  | .flushall => Commands.flushall
  | .info => Commands.info
  | .config => Commands.config
  | .command => fun argv => pure (Commands.command argv)
  | .debug => Commands.debug
  | .time => Commands.time
  | .lastsave => Commands.lastsave
  | .save => Commands.save
  | .bgsave => Commands.bgsave
  | .shutdown => Commands.shutdown

end Run

/-! ## Dispatch -/

def isAllowedInSubscriberMode (name : Bytes) : Bool :=
  ["subscribe","unsubscribe","psubscribe","punsubscribe","ssubscribe","sunsubscribe","ping","quit",
    "reset"].any fun word => name==ascii word

def isTransactionControl (name : Bytes) : Bool :=
  ["multi","exec","discard","watch","quit","reset"].any fun word => name==ascii word

def kUnknownCommandArgsLimit : ℕ := 128

def quoteArgs : List Bytes → Bytes → Bytes
  | [],quoted => quoted
  | a::rest,quoted =>
    if quoted.length < kUnknownCommandArgsLimit then
      quoteArgs rest (quoted++ascii "'"++a.take (kUnknownCommandArgsLimit-(quoted.length+1))++
        ascii "' ")
    else quoted

structure Refusal where
  code : Bytes
  text : Bytes

def unknownCommand (argv : List Bytes) : Refusal :=
  ⟨ascii "ERR",ascii "unknown command '"++arg argv 0++ascii "', with args beginning with: "++
    quoteArgs (argv.drop 1) []⟩

def fullName (spec : CommandSpec) (argv : List Bytes) : Bytes :=
  if spec.has Flags.kContainer ∧ 1 < argv.length then spec.name++ascii "|"++toLower (arg argv 1)
  else spec.name

def checkCommand (config : Config) (c : Client) (spec : CommandSpec) (argv : List Bytes) :
    Option Refusal :=
  if !arityOk spec argv.length then some ⟨ascii "ERR",Response.wrongArgsText spec.name⟩
  else if config.requirepass≠[] ∧ c.authenticated=false ∧ spec.has Flags.kNoAuth=false then
    some ⟨ascii "NOAUTH",ascii "Authentication required."⟩
  else if c.protover=2 ∧ c.inSubscriberMode ∧ isAllowedInSubscriberMode spec.name=false then
    some ⟨ascii "ERR",Response.subscriberModeText (fullName spec argv)⟩
  else none

namespace Server

/-- The client at a descriptor; what a handler is given always exists. -/
def clientAt (s : Server) (fd : ℕ) : Client := (s.clients fd).getD { id := 0, addr := [] }

section Text

variable [FloatText]

def write (s : Server) (fd protover : ℕ) (r : Response) : Server :=
  match r with
  | .terminated => { s with alive := false }
  | r => s.modifyClient fd fun c => { c with output := c.output++r.encode protover }

def reject (s : Server) (fd protover : ℕ) (spec : Option CommandSpec) (r : Refusal) : Server :=
  let s := s.modifyClient fd fun c => { c with multiError := c.multiError || c.inMulti }
  if spec.any (·.handler==.exec) then
    (s.discardTransaction fd).write fd protover
      (.error (ascii "EXECABORT Transaction discarded because of: "++r.text))
  else s.write fd protover (.error (r.code++ascii " "++r.text))

def flushSelf (s : Server) (fd : ℕ) : Server :=
  { s with selfPending := [] }.modifyClient fd fun c => { c with output := c.output++s.selfPending }

end Text

def enter (s : Server) (fd : ℕ) (name : Bytes) : Server :=
  { s with executing := some fd }.modifyClient fd fun c => { c with lastCommand := name }

def leave (s : Server) (previous : Option ℕ) : Server :=
  { s with
    executing := previous
    stats := { s.stats with commandsProcessed := s.stats.commandsProcessed+1 } }

section Run

variable [Platform]

/-- For the handlers that do not run others. -/
def callCommand (s : Server) (fr : Frame) (spec : CommandSpec) (argv : List Bytes) :
    Response×Server :=
  let r := spec.handler.run argv fr (s.enter fr.fd spec.name)
  (r.1,r.2.leave s.executing)

def runQueue (fr : Frame) : List (List Bytes) → Server → Server
  | [],s => s
  | argv::rest,s =>
    match lookupCommand (arg argv 0) with
    | none => runQueue fr rest s
    | some spec =>
      let r := s.callCommand fr spec argv
      let s := r.2.write fr.fd fr.protover r.1
      if s.alive then runQueue fr rest s else s

def exec (s : Server) (fr : Frame) : Server :=
  let c := s.clientAt fr.fd
  if c.inMulti=false then s.write fr.fd fr.protover (.err "ERR EXEC without MULTI")
  else if c.multiError then
    (s.discardTransaction fr.fd).write fr.fd fr.protover
      (.err "EXECABORT Transaction discarded because of previous errors.")
  else if c.dirtyCas then
    (s.discardTransaction fr.fd).write fr.fd fr.protover (.token .nullArray)
  else
    runQueue fr c.multiQueue ((s.discardTransaction fr.fd).write fr.fd fr.protover
      (.token (.arrayHeader c.multiQueue.length)))

def perform (s : Server) (fr : Frame) (spec : CommandSpec) (argv : List Bytes) : Server :=
  if spec.handler=.exec then ((s.enter fr.fd spec.name).exec fr).leave s.executing
  else
    let r := s.callCommand fr spec argv
    r.2.write fr.fd fr.protover r.1

def accepted (s : Server) (fr : Frame) (spec : CommandSpec) (argv : List Bytes) : Server :=
  if (s.clientAt fr.fd).inMulti ∧ isTransactionControl spec.name=false then
    (s.modifyClient fr.fd fun c => { c with multiQueue := c.multiQueue++[argv] }).write fr.fd
      fr.protover (.token (.simpleString (ascii "QUEUED")))
  else (s.perform fr spec argv).flushSelf fr.fd

def dispatch (s : Server) (now : ℤ) (fd : ℕ) (argv : List Bytes) : Server :=
  let c := s.clientAt fd
  let fr : Frame := ⟨now,fd,c.protover⟩
  match lookupCommand (arg argv 0) with
  | none => s.reject fd c.protover none (unknownCommand argv)
  | some spec =>
    match checkCommand s.config c spec argv with
    | some r => s.reject fd c.protover (some spec) r
    | none => s.accepted fr spec argv

def request (s : Server) (now : ℤ) (fd : ℕ) (argv : List Bytes) : Server :=
  if (s.clients fd).isNone then s
  else
    let s := s.dispatch now fd argv
    if (s.clientAt fd).closeAfterReply then s.closeClient fd else s

def newClient (s : Server) (now : ℤ) (addr : Bytes) : Client :=
  { id := s.nextClientId, addr := addr, createdAt := now, lastInteraction := now,
    authenticated := decide (s.config.requirepass=[]) }

def accept (s : Server) (now : ℤ) (fd : ℕ) (addr : Bytes) : Server :=
  if s.config.maxClients ≤ s.order.length then
    { s with stats := { s.stats with rejectedConnections := s.stats.rejectedConnections+1 } }
  else if (s.clients fd).isSome then s
  else
    { s with
      clients := Function.update s.clients fd (some (s.newClient now addr))
      order := s.order++[fd]
      nextClientId := s.nextClientId+1
      stats := { s.stats with connectionsReceived := s.stats.connectionsReceived+1 } }

def expireCycle (i : ℕ) : Cmd ℕ := fun ctx s =>
  let out := (s.databases i).activeExpireCycle ctx.now s.draws
  (out.1.result,{ s.put i out.1 with draws := out.2 })

def expireCycles (now : ℤ) (s : Server) (i : ℕ) : Server :=
  let r := Act.onKeyspace now i 2 (expireCycle i) s
  { r.2 with stats := { r.2.stats with expiredKeys := r.2.stats.expiredKeys+r.1 } }

def rehashAll (s : Server) : Server :=
  let databases := fun i =>
    if i < s.keyspace.count then (s.keyspace.databases i).incrementalRehash 100
    else s.keyspace.databases i
  { s with keyspace := { s.keyspace with databases := databases } }

def serverCron (s : Server) (now : ℤ) : Server :=
  let s := reapBackgroundSave s.world.head { s with world := s.world.tail }
  ((List.range s.keyspace.count).foldl (expireCycles now) s).rehashAll

end Run

end Server

def Server.create (config : Config) (draws : Draws) (runId : Bytes) (pid : ℕ)
    (files : Bytes → Option Bytes) (world : Stream' Outside) : Server where
  config := config
  keyspace := ⟨config.databases.toNat,fun _ => .init,draws,0,0,0,[]⟩
  clients := fun _ => none
  order := []
  nextClientId := 1
  channels := .empty
  shardChannels := .empty
  patterns := .empty
  watched := fun _ => .empty
  selfPending := []
  executing := none
  stats := {}
  startTime := 0
  runId := runId
  pid := pid
  lastSaveTime := 0
  rdbSaves := 0
  child := none
  dirtyAtFork := 0
  lastBgsaveOk := true
  files := files
  world := world
  running := true
  alive := true

/-- A server that `start` made ready for connections; none when the snapshot is refused. -/
def Server.start [FloatText] (s : Server) : Option Server :=
  let o := s.world.head
  let r := loadSnapshot o { s with world := s.world.tail, startTime := o.time }
  match r.1 with
  | .loaded => some { r.2 with lastSaveTime := o.time/1000 }
  | _ => none

def Server.Started [FloatText] (s : Server) : Prop :=
  ∃ config draws runId pid files world,(create config draws runId pid files world).start=some s

inductive ServerStep where
  | accept (now : ℤ) (fd : ℕ) (addr : Bytes)
  | request (now : ℤ) (fd : ℕ) (argv : List Bytes)
  | close (fd : ℕ)
  | cron (now : ℤ)
  | childRename
  | childExit (clean : Bool)

section Run

variable [Platform]

def Server.step (s : Server) (step : ServerStep) : Server :=
  if s.alive=false then s
  else
    match step with
    | .accept now fd addr => s.accept now fd addr
    | .request now fd argv => s.request now fd argv
    | .close fd => s.closeClient fd
    | .cron now => s.serverCron now
    | .childRename => Mnemos.childRename s
    | .childExit clean => Mnemos.childExit clean s

def Server.run (s : Server) (steps : List ServerStep) : Server := steps.foldl Server.step s

end Run

end Mnemos

/-! ## Reference arithmetic and a reference server -/

namespace Mnemos.PlatformReference

def strtodPrefix (s : Bytes) : Double×ℕ :=
  match stringToInt64 s with
  | some n => (DoubleText.ofInt n,s.length)
  | none => (.zero,0)

def add (a b : Double) : Double :=
  if a=.zero then b else if b=.zero then a
  else DoubleText.ofInt (DoubleText.wholePart a+DoubleText.wholePart b)

def mul (a b : Double) : Double :=
  DoubleText.ofInt (DoubleText.wholePart a*DoubleText.wholePart b)

def infLong : LongDouble := ⟨1⟩

def strtold (s : Bytes) : LongDouble×ℕ :=
  if s=ascii "inf" then (infLong,3)
  else
    match stringToInt64 s with
    | some n => (⟨BitVec.ofInt 128 (n*2)⟩,s.length)
    | none => (⟨0⟩,0)

def addLong (a b : LongDouble) : LongDouble :=
  if a=infLong then a else if b=infLong then b else ⟨a.bits+b.bits⟩

def fixed17 (x : LongDouble) : Bytes :=
  intDecimal (x.bits.toInt/2)++ascii ".00000000000000000"

@[reducible] def platform : Platform :=
  { DoubleText.reference with
    strtodPrefix := strtodPrefix
    add := add
    mul := mul
    strtold := strtold
    addLong := addLong
    isNaNLong := fun _ => false
    isInfLong := fun x => decide (x=infLong)
    zeroLong := ⟨0⟩
    fixed17 := fixed17
    memoryUsage := fun _ => 16 }

def granted (time : ℤ) : Outside where
  time := time
  micros := 0
  createError := none
  schedule := []
  renamed := true
  forkError := none
  interposed := false
  openError := none
  readFailed := false
  loadTimes := Stream'.const time

def configWith (requirepass : Bytes) : Config where
  bindAddress := ascii "127.0.0.1"
  port := 6380
  databases := 16
  maxClients := 10000
  requirepass := requirepass
  dir := ascii "."
  dbfilename := ascii "dump.rdb"
  notifyFlags := 0

/-- A new server with a password, without a file and without a connection. -/
def serverWith (requirepass : Bytes) : Server :=
  .create (configWith requirepass) (Stream'.const 0) [] 1 (fun _ => none)
    (Stream'.const (granted 1000))

def started [FloatText] : Server := (serverWith []).start.getD (serverWith [])

theorem started_started [FloatText] : started.Started :=
  ⟨configWith [],Stream'.const 0,[],1,fun _ => none,Stream'.const (granted 1000),rfl⟩

def server : Server := (serverWith []).accept 1000 7 []

end Mnemos.PlatformReference
