import Velora.Api.Admins
import Velora.Api.Scopes
import Velora.Api.Trail
import Velora.Backup.Offline
import Velora.Backup.Restart
import Velora.Cache.Admission
import Velora.Cache.Override
import Velora.Cache.Subtree
import Velora.Clients.Lookup
import Velora.Cluster.Content
import Velora.Cluster.Limit
import Velora.Cluster.Roles
import Velora.Cluster.Sync
import Velora.Config.Change
import Velora.Config.Domains
import Velora.Dhcp.Reserved
import Velora.Dhcp.Subnet
import Velora.Dhcp.Wire
import Velora.Dns.Alias
import Velora.Dns.Answer
import Velora.Dns.Axfr
import Velora.Dns.Covering
import Velora.Dns.Cookies
import Velora.Dns.Denial
import Velora.Dns.Depth
import Velora.Dns.Downgrade
import Velora.Dns.Edns
import Velora.Dns.Explain
import Velora.Dns.Nsec
import Velora.Dns.Serving
import Velora.Dns.Trial
import Velora.Filtering.Bypass
import Velora.Filtering.Fetch
import Velora.Filtering.Schedule
import Velora.Forwarding.Stale
import Velora.Policies.Labels
import Velora.Querylog.Analytics
import Velora.Querylog.Logger
import Velora.Update.Agent
import Velora.Update.Extract
import Velora.Update.History
import Velora.Update.Rollback
import Velora.Update.Versions
import Velora.Webhooks.Address
import Velora.Webhooks.Delivery
import Velora.Zones.Edits
import Velora.Zones.Exists
import Velora.Zones.Literal
import Velora.Zones.Spacing
