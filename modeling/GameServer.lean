import GameServer.AffectTick
import GameServer.Stars
import GameServer.SpawnCycle
import GameServer.StatsCurrent
import GameServer.StatsRoundTrip
import GameServer.MaxRecalc
import GameServer.ShieldDamage
import GameServer.TickLength
import GameServer.CountedPassives
import GameServer.UuidUnique
import GameServer.SaveThreadFlush
import GameServer.BestFirst
import GameServer.PathRoute
import GameServer.PathFallback
import GameServer.ShopFair
import GameServer.AffectLifecycle
import GameServer.MatchUnique
import GameServer.MatchKept
import GameServer.Mailbox
import GameServer.ExploreEnd
import GameServer.ExploreCards
import GameServer.PaidRefresh
import GameServer.Quotas
import GameServer.ShopLimit
import GameServer.UpgradeLinear
import GameServer.AwardOnce
import GameServer.ShopQuantity
import GameServer.MailIsolation
import GameServer.ActivityReload
import GameServer.MailDelivery
import GameServer.RecordRoundTrip
import GameServer.ExploreReport
import GameServer.SpecialOffer
import GameServer.DailyQuota
import GameServer.StatementIntact
import GameServer.SerializeRoundTrip
import GameServer.SkillFusion
import GameServer.MailGrant
import GameServer.FlowDirection
import GameServer.CooldownEnforced
import GameServer.RankList
import GameServer.DeathCount
import GameServer.StayDead
import GameServer.WallSafety
import GameServer.Occupancy
import GameServer.OneEffect
import GameServer.HeroAffects
import GameServer.DeathClears
import GameServer.HpMpMask
import GameServer.BattleStart
import GameServer.HeroPicks
import GameServer.HateList
import GameServer.KillRewards
import GameServer.BattleResults
import GameServer.SingleLogin
import GameServer.AgentLifetime
import GameServer.AuraIndependence
import GameServer.CommonSkill
import GameServer.ChargeSkills
import GameServer.MatchStep
import GameServer.KeepTick
import GameServer.Drops
import GameServer.ForcedMove
import GameServer.Blink
import GameServer.LineTest
import GameServer.PackageDraws
import GameServer.OnePerSeries
import GameServer.OrderFree
import GameServer.AreaHits
import GameServer.ChainBullet
import GameServer.CircleSelect
import GameServer.EntityTick
import GameServer.ReplaceSkill
import GameServer.Retarget
import GameServer.SummonLimit
import GameServer.CardsBySerial
import GameServer.PathHeads
import GameServer.TimeOfDay
import GameServer.Zeller
import GameServer.PointInRect
import GameServer.SkillText
import GameServer.LinkedListRuns
import GameServer.DataCacheRuns
import GameServer.MailboxLaunch
import GameServer.SeriLimits
import GameServer.SessionSteps
